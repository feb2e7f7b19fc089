import Multiversion.Proofs.Isolation.Timeline

/-!
# Sessions

The steps of `Engine.run` load a reader's view for each read, and carry out background work as a whole.
A session is a run in which views are kept open and used again, queues are worked off one element at a
time, resolver and sweeper are shut down, and cells are written and erased behind the back of the
regions.  A read of many cells is a sequence of looks.

* `Move`, `Session.move`, `Session.run` — the moves and runs;
* `Move.Honest` — nobody but readers leaves hand-offs, and nobody writes cached timestamps;
* `Session.Sound` — records in order, and everything that is due to be handed over is due;
* `Session.Effect` — what a move does to the store and to the cells.

Main statement: `Session.effect_move` — every honest move of a sound session has one of these effects
and leaves a sound session, with later records.
-/

namespace Multiversion

/-- An engine under observation, with the views of readers that are kept open. -/
structure Session where
  timeline : Timeline
  views : List Visibility := []

/-- A move of a session. -/
inductive Move where
  | step (s : Step)
  -- A reader's view is loaded, to be used from now on.
  | enter (reader : View)
  -- An open view examines a cell that was read at this moment, or earlier.
  | look (index : Nat) (key : Bytes) (cell : Cell)
  | resolveNext
  | sweepNext
  | stopResolver
  | stopSweeper
  | write (key : Bytes) (cell : Cell)
  | erase (key : Bytes) (writer : TxnId)

/-- Applies the oldest hand-off of a queue. -/
def Sweeper.applyNext (s : Sweeper) (cells : CellStore) : Sweeper × CellStore :=
  match s with
  | .queued (h :: rest) accepting applied =>
      let (changed, cells) := h.applyTo cells
      (.queued rest accepting (applied + if changed then 1 else 0), cells)
  | _ => (s, cells)

namespace Engine

/-- Carries out the oldest request of the resolver. -/
def resolveNext (e : Engine) : Engine :=
  match e.resolver with
  | none => e
  | some resolver =>
      let (resolver, store) := resolver.runNext e.store e.now
      { e with resolver := some resolver, store }

/-- Applies the oldest hand-off of the sweeper. -/
def sweepNext (e : Engine) : Engine :=
  let (sweeper, cells) := e.sweeper.applyNext e.cells
  { e with sweeper, cells }

end Engine

/-- No hand-off is applied that no reader has left, and no cached timestamp is written. -/
def Move.Honest : Move → Prop
  | .step (.sweep _) => False
  | .write _ cell => cell.commit = none
  | _ => True

namespace Session

/-- The engine of a session. -/
def engine (s : Session) : Engine := s.timeline.engine

/-- The records at this moment. -/
def directory (s : Session) : Directory := s.engine.directory

/-- The session with another engine. -/
def withEngine (s : Session) (e : Engine) : Session :=
  { s with timeline := { s.timeline with engine := e } }

/-- One move of a session. -/
def move (s : Session) : Move → Session
  | .step step => { s with timeline := s.timeline.step step }
  | .enter reader =>
      match Visibility.load s.directory reader with
      | .error _ => s
      | .ok v => { s with views := s.views ++ [v] }
  | .look index key cell =>
      match s.views[index]? with
      | none => s
      | some v =>
          let (_, _, v, e) := s.engine.examine v fun d v => v.fate d key cell
          { s.withEngine e with views := s.views.set index v }
  | .resolveNext => s.withEngine s.engine.resolveNext
  | .sweepNext => s.withEngine s.engine.sweepNext
  | .stopResolver => s.withEngine s.engine.stopResolver
  | .stopSweeper => s.withEngine s.engine.stopSweeper
  | .write key cell => s.withEngine { s.engine with cells := s.engine.cells.put key cell }
  | .erase key writer =>
      s.withEngine { s.engine with cells := (s.engine.cells.removeVersion key writer).2 }

/-- The session after some moves. -/
def run (s : Session) (moves : List Move) : Session := moves.foldl move s

/-- A session on which nothing has happened yet. -/
structure IsFresh (s : Session) : Prop where
  timeline : s.timeline.IsFresh
  views : s.views = []

/-- A session whose records are in order, and in which only what is due is queued or remembered. -/
structure Sound (s : Session) : Prop where
  records : s.directory.Sound
  pending : ∀ h ∈ s.engine.sweeper.pending, h.Due s.directory
  views : ∀ v ∈ s.views, v.Reliable s.directory

/-- What a move does to the store and to the cells. -/
inductive Effect (s : Session) : Move → TxnStore → CellStore → Prop
  | change {step : Step} {change : Change} (hchange : step.change? = some change) :
      Effect s (.step step) (s.engine.store.submit s.engine.now change).2 s.engine.cells
  | batch {r : Region} {resolves : Bool} {txn : View} {batch : List Mutation} :
      Effect s (.step (.applyBatch r resolves txn batch)) s.engine.store
        (r.applyBatch s.directory txn s.engine.cells batch).2.2
  | tidy {m : Move} {store : TxnStore} {cells : CellStore}
      (hquiet : ∀ step, m = .step step → step.isQuiet = true)
      (hresolved : s.engine.store.Resolved s.engine.now store)
      (htidied : s.engine.cells.Tidied (HandOff.Due (store.directory s.engine.now)) cells) :
      Effect s m store cells
  | write {key : Bytes} {cell : Cell} (hplain : cell.commit = none) :
      Effect s (.write key cell) s.engine.store (s.engine.cells.put key cell)
  | erase {key : Bytes} {writer : TxnId} :
      Effect s (.erase key writer) s.engine.store (s.engine.cells.removeVersion key writer).2

end Session

theorem Sweeper.tidied_applyNext {P : HandOff → Prop} {s : Sweeper} (hs : ∀ h ∈ s.pending, P h)
    (cells : CellStore) :
    cells.Tidied P (s.applyNext cells).2 ∧ ∀ h ∈ (s.applyNext cells).1.pending, P h := by
  cases s with
  | ignoring => exact ⟨.refl cells, hs⟩
  | prompt => exact ⟨.refl cells, hs⟩
  | queued queue accepting applied =>
      cases queue with
      | nil => exact ⟨.refl cells, hs⟩
      | cons h rest =>
          exact ⟨.apply (hs h List.mem_cons_self) (.refl _),
            fun x hx => hs x (List.mem_cons_of_mem _ hx)⟩

theorem Sweeper.tidied_shutdown {P : HandOff → Prop} {s : Sweeper} (hs : ∀ h ∈ s.pending, P h)
    (cells : CellStore) :
    cells.Tidied P (s.shutdown cells).2 ∧ ∀ h ∈ (s.shutdown cells).1.pending, P h := by
  obtain ⟨htidied, -⟩ := tidied_drain hs cells
  cases s with
  | ignoring => exact ⟨htidied, hs⟩
  | prompt => exact ⟨htidied, hs⟩
  | queued queue accepting applied => exact ⟨htidied, by simp [shutdown, drain, pending]⟩

namespace Engine

variable {e : Engine} {P : Directory → HandOff → Prop}

theorem tidier_resolveNext (hlasting : HandOff.Lasting P)
    (hpending : ∀ h ∈ e.sweeper.pending, P e.directory h) : e.Tidier P e.resolveNext := by
  unfold resolveNext
  cases e.resolver with
  | none => exact .refl hpending
  | some v =>
      have hresolved := v.resolved_runNext e.store e.now
      exact ⟨hresolved, .refl _, fun h hh => hlasting.later (hpending h hh) hresolved.later⟩

theorem tidier_stopResolver (hlasting : HandOff.Lasting P)
    (hpending : ∀ h ∈ e.sweeper.pending, P e.directory h) : e.Tidier P e.stopResolver := by
  unfold stopResolver
  cases e.resolver with
  | none => exact .refl hpending
  | some v =>
      have hresolved := v.stop.resolved_runMany e.store e.now v.stop.queue.length
      exact ⟨hresolved, .refl _, fun h hh => hlasting.later (hpending h hh) hresolved.later⟩

theorem tidier_sweepNext (hpending : ∀ h ∈ e.sweeper.pending, P e.directory h) :
    e.Tidier P e.sweepNext := by
  obtain ⟨htidied, hrest⟩ := Sweeper.tidied_applyNext hpending e.cells
  exact ⟨.refl _, htidied, hrest⟩

theorem tidier_stopSweeper (hpending : ∀ h ∈ e.sweeper.pending, P e.directory h) :
    e.Tidier P e.stopSweeper := by
  obtain ⟨htidied, hrest⟩ := Sweeper.tidied_shutdown hpending e.cells
  exact ⟨.refl _, htidied, hrest⟩

end Engine

namespace Session

variable {s : Session}

theorem IsFresh.sound (h : s.IsFresh) : s.Sound where
  records := h.timeline.engine.sound.records
  pending := by
    rw [engine, h.timeline.engine.idle]
    simp
  views := by
    rw [h.views]
    simp

/-- Background work leaves a sound session, with later records. -/
theorem sound_of_tidier (hs : s.Sound) {e : Engine} (htidier : s.engine.Tidier HandOff.Due e) :
    (s.withEngine e).Sound ∧ s.directory.Later e.directory := by
  have hlater : s.directory.Later e.directory :=
    htidier.resolved.later.trans (Engine.later_directory _ _ _)
  exact ⟨⟨Engine.sound_directory (htidier.resolved.sound hs.records) _, htidier.pending,
    fun v hv => (hs.views v hv).later hlater⟩, hlater⟩

/-- An open view that is used once more. -/
theorem tidier_look (hs : s.Sound) {v : Visibility} (hv : v ∈ s.views) (key : Bytes) (cell : Cell) :
    let examined := s.engine.examine v fun d v => v.fate d key cell
    s.engine.Tidier HandOff.Due examined.2.2.2 ∧ examined.2.2.1.Reliable s.directory := by
  have hreliable := Visibility.reliable_fate hs.records (hs.views v hv) key cell
  exact ⟨Engine.tidier_post HandOff.lasting_due hs.pending hreliable.handOffs,
    hreliable.clearOutbox⟩

theorem later_step {step : Step} {store : TxnStore} {cells : CellStore}
    (heffect : s.Effect (.step step) store cells) (now : Millis) :
    s.directory.Later (store.directory now) := by
  cases heffect with
  | change => exact s.engine.store.later_submit _ now _
  | batch => exact Engine.later_directory _ _ _
  | tidy _ hresolved => exact hresolved.later.trans (Engine.later_directory _ _ _)

/-- An honest step of the engine, with hand-offs that are due. -/
theorem effect_step (hs : s.Sound) {step : Step} (hstep : (Move.step step).Honest) :
    s.Effect (.step step) (s.engine.step step).store (s.engine.step step).cells ∧
      (s.engine.step step).directory.Sound ∧
      ∀ h ∈ (s.engine.step step).sweeper.pending, h.Due (s.engine.step step).directory := by
  cases hquiet : step.isQuiet with
  | true =>
      have hsweep : ∀ h, step = .sweep h → HandOff.Due s.engine.directory h := by
        rintro h rfl
        exact hstep.elim
      obtain ⟨hresolved, htidied, hpending⟩ := Engine.tidier_step HandOff.lasting_due hs.records
        hs.pending hquiet hsweep
      refine ⟨.tidy ?_ hresolved htidied,
        Engine.sound_directory (hresolved.sound hs.records) _, hpending⟩
      rintro _ ⟨⟩
      exact hquiet
  | false =>
      have hsubmit : ∀ {change : Change}, change.Honest s.directory →
          (s.engine.submit change).2.directory.Sound ∧
          ∀ h ∈ (s.engine.submit change).2.sweeper.pending,
            h.Due (s.engine.submit change).2.directory :=
        fun hhonest => ⟨TxnStore.sound_submit hs.records hhonest _,
          fun h hh => (hs.pending h hh).later (s.engine.store.later_submit _ _ _)⟩
      cases step with
      | begin => exact ⟨.change rfl, hsubmit trivial⟩
      | commit => exact ⟨.change rfl, hsubmit trivial⟩
      | rollback => exact ⟨.change rfl, hsubmit trivial⟩
      | keepAlive => exact ⟨.change rfl, hsubmit trivial⟩
      | applyBatch r resolves txn batch =>
          cases resolves with
          | false => exact ⟨.batch, hs.records, hs.pending⟩
          | true => exact ⟨.batch, hs.records, hs.pending⟩
      | advance => cases hquiet
      | get => cases hquiet
      | scan => cases hquiet
      | resolve => cases hquiet
      | settle => cases hquiet
      | sweep => cases hquiet

/-- **What a move can do.** -/
theorem effect_move (hs : s.Sound) {m : Move} (hm : m.Honest) :
    s.Effect m (s.move m).engine.store (s.move m).engine.cells ∧ (s.move m).Sound ∧
      s.directory.Later (s.move m).directory := by
  -- Whatever is no step of the engine, but background work.
  have htidy : ∀ {m : Move} {e : Engine}, (∀ step, m ≠ .step step) →
      s.engine.Tidier HandOff.Due e → s.Effect m e.store e.cells ∧ (s.withEngine e).Sound ∧
        s.directory.Later e.directory := by
    intro m e hm htidier
    exact ⟨.tidy (fun step hstep => absurd hstep (hm step)) htidier.resolved htidier.tidied,
      sound_of_tidier hs htidier⟩
  cases m with
  | step step =>
      obtain ⟨heffect, hrecords, hpending⟩ := effect_step hs hm
      have hlater := later_step heffect (s.engine.step step).now
      exact ⟨heffect, ⟨hrecords, hpending, fun v hv => (hs.views v hv).later hlater⟩, hlater⟩
  | enter reader =>
      obtain ⟨heffect, -, hlater⟩ := htidy (m := .enter reader) (by simp) (.refl hs.pending)
      simp only [move]
      split
      · exact ⟨heffect, hs, hlater⟩
      · rename_i v hload
        refine ⟨heffect, ⟨hs.records, hs.pending, fun w hw => ?_⟩, hlater⟩
        rcases List.mem_append.1 hw with hw | hw
        · exact hs.views w hw
        · rw [List.mem_singleton.1 hw]
          exact Visibility.reliable_load hload
  | look index key cell =>
      simp only [move]
      split
      · exact htidy (by simp) (.refl hs.pending)
      · rename_i v hindex
        obtain ⟨htidier, hreliable⟩ := tidier_look hs (List.mem_of_getElem? hindex) key cell
        obtain ⟨heffect, hsound, hlater⟩ := htidy (m := .look index key cell) (by simp) htidier
        refine ⟨heffect, ⟨hsound.records, hsound.pending, fun w hw => ?_⟩, hlater⟩
        rcases List.mem_or_eq_of_mem_set hw with hw | rfl
        · exact (hs.views w hw).later hlater
        · exact hreliable.later hlater
  | resolveNext =>
      exact htidy (by simp) (Engine.tidier_resolveNext HandOff.lasting_due hs.pending)
  | sweepNext => exact htidy (by simp) (Engine.tidier_sweepNext hs.pending)
  | stopResolver =>
      exact htidy (by simp) (Engine.tidier_stopResolver HandOff.lasting_due hs.pending)
  | stopSweeper => exact htidy (by simp) (Engine.tidier_stopSweeper hs.pending)
  | write key cell => exact ⟨.write hm, ⟨hs.records, hs.pending, hs.views⟩, .refl _⟩
  | erase key writer => exact ⟨.erase, ⟨hs.records, hs.pending, hs.views⟩, .refl _⟩

theorem sound_run (hs : s.Sound) {moves : List Move} (hmoves : ∀ m ∈ moves, m.Honest) :
    (s.run moves).Sound := by
  induction moves generalizing s with
  | nil => exact hs
  | cons m rest ih =>
      exact ih (effect_move hs (hmoves m List.mem_cons_self)).2.1
        fun x hx => hmoves x (List.mem_cons_of_mem _ hx)

end Session

end Multiversion
