import Multiversion.Proofs.Isolation.Runs
import Multiversion.Proofs.Lineage.Loading
import Multiversion.Proofs.Storage.Versions

/-!
# The cells of a run

Along every lawful run, each version in the cell store belongs to a recorded transaction, whose lineage
is complete, and a commit timestamp cached on a version is that of the lineage's root.

* `Cell.Recorded` — the property of one version;
* `Engine.Coherent` — the property of a whole engine, together with its soundness;
* `Engine.coherent_run` — it holds along every run.
-/

namespace Multiversion

/-- A version whose writer is recorded below a complete lineage, and whose cached timestamp, if there is
one, is that of the lineage's root. -/
def Cell.Recorded (d : Directory) (c : Cell) : Prop :=
  ∃ v us, d.find? c.writer = some v ∧ Path d v us ∧ us.length ≤ maxAncestors ∧
    c.timestamp = v.begin ∧ ∀ ts, c.commit = some ts → rootCommit v us = some ts

theorem Cell.Recorded.later {d d' : Directory} {c : Cell} (h : c.Recorded d) (hlater : d.Later d') :
    c.Recorded d' := by
  obtain ⟨v, us, hfind, hpath, hlength, hbegin, hcached⟩ := h
  obtain ⟨v', hfind', hevolves⟩ := hlater _ _ hfind
  obtain ⟨us', hpath', hlength', hroot⟩ := hlater.path hpath hevolves
  refine ⟨v', us', hfind', hpath', ?_, ?_, fun ts hts => hroot ts (hcached ts hts)⟩
  · rwa [hlength']
  · rwa [hevolves.begin]

namespace CellStore

/-- A cell store all of whose versions are recorded. -/
def Recorded (d : Directory) (cells : CellStore) : Prop :=
  ∀ key, ∀ c ∈ cells.versions key, c.Recorded d

variable {d : Directory} {cells : CellStore}

theorem Recorded.put (h : cells.Recorded d) (key : Bytes) {c : Cell} (hc : c.Recorded d) :
    (cells.put key c).Recorded d := by
  intro other x hx
  rw [versions_put] at hx
  split at hx
  · rcases Cell.mem_replace.1 hx with rfl | ⟨hx, -⟩
    · exact hc
    · exact h other x hx
  · exact h other x hx

/-- A justified hand-off keeps all versions recorded. -/
theorem Recorded.applyTo (h : cells.Recorded d) {handOff : HandOff}
    (hjustified : handOff.Justified d) : (handOff.applyTo cells).2.Recorded d := by
  intro other x hx
  cases handOff with
  | rolledBack key writer =>
      rw [HandOff.applyTo, versions_removeVersion] at hx
      split at hx
      · exact h other x (List.mem_of_mem_filter hx)
      · exact h other x hx
  | committed key writer ts =>
      rw [HandOff.applyTo, versions_setCommit] at hx
      split at hx
      · rcases Cell.mem_markCommitted hx with hx | ⟨c, hc, rfl, rfl⟩
        · exact h other x hx
        · obtain ⟨v, us, hfind, hpath, hlength, hbegin, -⟩ := h other c hc
          obtain ⟨v', us', hfind', hpath', hroot⟩ := hjustified
          rw [hfind] at hfind'
          cases hfind'
          rw [hpath'.unique hpath] at hroot
          exact ⟨v, us, hfind, hpath, hlength, hbegin, fun _ hts => Option.some.inj hts ▸ hroot⟩
      · exact h other x hx

theorem Recorded.swept (h : cells.Recorded d) {cells' : CellStore} (hswept : cells.Swept d cells') :
    cells'.Recorded d := by
  induction hswept with
  | refl => exact h
  | apply hjustified _ ih => exact ih (h.applyTo hjustified)

end CellStore

namespace Region

/-- The version that a transaction with a loaded lineage writes is recorded. -/
theorem recorded_cellOf {d : Directory} {txn : View} {l : Lineage} (hfind : d.find? txn.id = some txn)
    (hload : Lineage.load d txn = .ok l) (m : Mutation) : (cellOf txn m).Recorded d := by
  obtain ⟨-, us, hpath, hlength⟩ := Lineage.path_of_load hload
  exact ⟨txn, us, hfind, hpath, hlength, rfl, by simp [cellOf]⟩

theorem Applied.recorded {d : Directory} {txn : View} {l : Lineage} {cells cells' : CellStore}
    {batch : List Mutation} {statuses : List Status} (h : Applied d txn l cells batch statuses cells')
    (hcell : ∀ m, (cellOf txn m).Recorded d) (hcells : cells.Recorded d) : cells'.Recorded d := by
  induction h with
  | nil => exact hcells
  | skip _ _ ih => exact ih hcells
  | @put _ _ m _ _ _ _ _ _ ih => exact ih (hcells.put m.key (hcell m))

end Region

namespace Engine

/-- A sound engine all of whose versions are recorded. -/
structure Coherent (e : Engine) : Prop extends e.Sound where
  cells : e.cells.Recorded e.directory

variable {e : Engine}

theorem IsFresh.coherent (h : e.IsFresh) : e.Coherent where
  toSound := h.sound
  cells key c hc := by simp [h.unwritten key] at hc

/-- **A lawful step keeps an engine coherent.** -/
theorem coherent_step (he : e.Coherent) {step : Step} (hstep : step.Lawful e) :
    (e.step step).Coherent := by
  obtain ⟨heffect, hsound⟩ := effect_step he.toSound hstep
  have hlater := later_step he.toSound hstep
  have hold : ∀ cells : CellStore, cells.Recorded e.directory →
      cells.Recorded (e.step step).directory :=
    fun cells h key c hc => (h key c hc).later hlater
  refine ⟨hsound, ?_⟩
  generalize hstore : (e.step step).store = store' at heffect
  generalize (e.step step).cells = cells' at heffect
  cases heffect with
  | change => exact hold _ he.cells
  | @batch r resolves txn batch =>
      refine hold _ ?_
      rcases r.applyBatch_cases he.records txn e.cells batch with
        ⟨hsame, -⟩ | ⟨w, l, -, -, hload, happlied⟩
      · rw [hsame]
        exact he.cells
      · exact happlied.recorded (Region.recorded_cellOf hstep hload) he.cells
  | tidy _ hresolved hswept =>
      have hcells : cells'.Recorded (store'.directory e.now) :=
        CellStore.Recorded.swept (fun key c hc => (he.cells key c hc).later hresolved.later) hswept
      intro key c hc
      rw [directory, hstore]
      exact (hcells key c hc).later (later_directory store' e.now _)

theorem coherent_run (he : e.Coherent) {steps : List Step} (h : e.Admits Step.Lawful steps) :
    (e.run steps).Coherent := by
  induction steps generalizing e with
  | nil => exact he
  | cons step rest ih => exact ih (coherent_step he h.1) h.2

end Engine

end Multiversion
