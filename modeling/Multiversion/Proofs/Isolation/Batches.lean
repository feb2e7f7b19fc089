import Multiversion.Proofs.Visibility.Memory
import Multiversion.Region

/-!
# What a batch writes

A batch goes through its mutations one by one, with a view that remembers writers.  Seen without that
memory, it is a chain of single writes:

* `Region.Applied` — every mutation is skipped, or meets no version that stands in its way and is
  written;
* `Region.applyBatch_cases` — a batch is refused as a whole, or its transaction is active and the batch
  is such a chain.
-/

namespace Multiversion

namespace Region

/-- The effect of a batch on the cells, with one status for each mutation.  A successful write of a
transaction that is not additive has seen no version that it conflicts with. -/
inductive Applied (d : Directory) (txn : View) (l : Lineage) :
    CellStore → List Mutation → List Status → CellStore → Prop
  | nil (cells : CellStore) : Applied d txn l cells [] [] cells
  | skip {cells cells' : CellStore} {m : Mutation} {batch : List Mutation} {status : Status}
      {statuses : List Status} (hstatus : status.isSuccess = false)
      (hrest : Applied d txn l cells batch statuses cells') :
      Applied d txn l cells (m :: batch) (status :: statuses) cells'
  | put {cells cells' : CellStore} {m : Mutation} {batch : List Mutation} {status : Status}
      {statuses : List Status} (hstatus : status.isSuccess = true)
      (hfree : txn.additive = false → ∀ c ∈ cells.get m.key .everything,
        ∃ f, l.fateOf d c = .ok f ∧ f.conflictsWith txn = false)
      (hrest : Applied d txn l (cells.put m.key (cellOf txn m)) batch statuses cells') :
      Applied d txn l cells (m :: batch) (status :: statuses) cells'

variable {d : Directory} {txn : View}

/-- If nothing stands in the way of a write, no version conflicts with it. -/
theorem obstacle_spec (txn : View) (hd : d.Sound) {v : Visibility} (hv : v.Faithful d) (key : Bytes)
    (cells : List Cell) :
    (obstacle d txn key v cells).2.Faithful d ∧
      (obstacle d txn key v cells).2.lineage = v.lineage ∧
      ((obstacle d txn key v cells).1 = .none →
        ∀ c ∈ cells, ∃ f, v.lineage.fateOf d c = .ok f ∧ f.conflictsWith txn = false) := by
  induction cells generalizing v with
  | nil => exact ⟨hv, rfl, by simp⟩
  | cons cell rest ih =>
      obtain ⟨hanswer, hfaithful, hlineage⟩ := Visibility.fate_spec hd hv key cell
      simp only [obstacle]
      cases hfate : v.fate d key cell with
      | mk answer v' =>
          rw [hfate] at hanswer hfaithful hlineage
          dsimp only at hanswer hfaithful hlineage
          cases answer with
          | error e => exact ⟨hfaithful, hlineage, by simp⟩
          | ok f =>
              dsimp only
              cases hconflict : f.conflictsWith txn with
              | true =>
                  rw [if_pos rfl]
                  exact ⟨hfaithful, hlineage, by simp⟩
              | false =>
                  obtain ⟨hfaithful', hlineage', hfree⟩ := ih hfaithful
                  rw [if_neg Bool.false_ne_true]
                  refine ⟨hfaithful', hlineage'.trans hlineage, fun hnone c hc => ?_⟩
                  rcases List.mem_cons.1 hc with rfl | hc
                  · exact ⟨f, hanswer.symm, hconflict⟩
                  · rw [← hlineage]
                    exact hfree hnone c hc

/-- A transaction that is not additive never succeeds over a conflicting version. -/
theorem isSuccess_conflictStatus (hadditive : txn.additive = false) (m : Mutation) (other : TxnId) :
    (conflictStatus d txn m other).isSuccess = false := by
  unfold conflictStatus
  cases d.get other with
  | error e => rfl
  | ok view => simp [hadditive, Status.writeConflict, Status.isSuccess]

/-- One mutation is skipped or written. -/
theorem applyOne_cases (txn : View) (hd : d.Sound) (r : Region) {v : Visibility} (hv : v.Faithful d)
    (cells : CellStore) (m : Mutation) :
    (r.applyOne d txn v cells m).2.1.Faithful d ∧
      (r.applyOne d txn v cells m).2.1.lineage = v.lineage ∧
      ((r.applyOne d txn v cells m).1.isSuccess = false ∧ (r.applyOne d txn v cells m).2.2 = cells ∨
        (r.applyOne d txn v cells m).1.isSuccess = true ∧
          (r.applyOne d txn v cells m).2.2 = cells.put m.key (cellOf txn m) ∧
          (txn.additive = false → ∀ c ∈ cells.get m.key .everything,
            ∃ f, v.lineage.fateOf d c = .ok f ∧ f.conflictsWith txn = false)) := by
  unfold applyOne
  split
  · exact ⟨hv, rfl, .inl ⟨rfl, rfl⟩⟩
  · split
    · exact ⟨hv, rfl, .inl ⟨rfl, rfl⟩⟩
    · obtain ⟨hfaithful, hlineage, hfree⟩ :=
        obstacle_spec txn hd hv m.key (cells.get m.key .everything)
      cases hobstacle : obstacle d txn m.key v (cells.get m.key .everything) with
      | mk obstacle v' =>
          rw [hobstacle] at hfaithful hlineage hfree
          dsimp only at hfaithful hlineage hfree
          cases obstacle with
          | unreadable e => exact ⟨hfaithful, hlineage, .inl ⟨rfl, rfl⟩⟩
          | none => exact ⟨hfaithful, hlineage, .inr ⟨rfl, rfl, fun _ => hfree rfl⟩⟩
          | conflict other =>
              refine ⟨hfaithful, hlineage, ?_⟩
              dsimp only
              cases hsuccess : (conflictStatus d txn m other).isSuccess with
              | false => exact .inl ⟨rfl, if_neg Bool.false_ne_true⟩
              | true =>
                  refine .inr ⟨rfl, if_pos rfl, fun hadditive => ?_⟩
                  simp [isSuccess_conflictStatus hadditive] at hsuccess

theorem applyEach_cons (d : Directory) (txn : View) (r : Region) (v : Visibility) (cells : CellStore)
    (m : Mutation) (rest : List Mutation) :
    (r.applyEach d txn v cells (m :: rest)).1 =
        (r.applyOne d txn v cells m).1 ::
          (r.applyEach d txn (r.applyOne d txn v cells m).2.1 (r.applyOne d txn v cells m).2.2 rest).1 ∧
      (r.applyEach d txn v cells (m :: rest)).2.2 =
        (r.applyEach d txn (r.applyOne d txn v cells m).2.1
          (r.applyOne d txn v cells m).2.2 rest).2.2 :=
  ⟨rfl, rfl⟩

/-- Mutations applied in order are a chain of single writes. -/
theorem applied_applyEach (txn : View) (hd : d.Sound) (r : Region) {v : Visibility} (hv : v.Faithful d)
    (cells : CellStore) (batch : List Mutation) :
    Applied d txn v.lineage cells batch (r.applyEach d txn v cells batch).1
      (r.applyEach d txn v cells batch).2.2 := by
  induction batch generalizing v cells with
  | nil => exact .nil cells
  | cons m rest ih =>
      obtain ⟨hfaithful, hlineage, hcases⟩ := applyOne_cases txn hd r hv cells m
      have hrest := ih hfaithful (r.applyOne d txn v cells m).2.2
      rw [hlineage] at hrest
      obtain ⟨hstatuses, hafter⟩ := applyEach_cons d txn r v cells m rest
      rw [hstatuses, hafter]
      rcases hcases with ⟨hstatus, hcells⟩ | ⟨hstatus, hcells, hfree⟩
      · rw [hcells] at hrest ⊢
        exact .skip hstatus hrest
      · rw [hcells] at hrest ⊢
        exact .put hstatus hfree hrest

theorem of_openBatch {v : Visibility} (h : openBatch d txn = .ok v) :
    ∃ w, d.find? txn.id = some w ∧ w.phase = .active ∧ Visibility.load d txn = .ok v := by
  unfold openBatch at h
  split at h
  · contradiction
  · rename_i phase hread
    obtain ⟨w, hfind, rfl⟩ := Directory.phase_eq_ok_iff.1 hread
    split at h
    · contradiction
    · rename_i hrunning
      refine ⟨w, hfind, ?_, ?_⟩
      · cases hphase : w.phase with
        | active => rfl
        | committed => simp [hphase, Phase.isTerminal] at hrunning
        | rolledBack => simp [hphase, Phase.isTerminal] at hrunning
      · split at h
        · contradiction
        · rename_i hload
          cases h
          exact hload

theorem isSuccess_refusal {status : Status} (h : openBatch d txn = .error status) :
    status.isSuccess = false := by
  unfold openBatch at h
  split at h
  · cases h
    rfl
  · split at h
    · cases h
      rfl
    · split at h
      · cases h
        rfl
      · contradiction

/-- **What a batch can do.**  It is refused as a whole and changes no cell, or its transaction is active
and the batch is a chain of single writes. -/
theorem applyBatch_cases (hd : d.Sound) (r : Region) (txn : View) (cells : CellStore)
    (batch : List Mutation) :
    ((r.applyBatch d txn cells batch).2.2 = cells ∧
        ∀ s ∈ (r.applyBatch d txn cells batch).1, s.isSuccess = false) ∨
      ∃ w l, d.find? txn.id = some w ∧ w.phase = .active ∧ Lineage.load d txn = .ok l ∧
        Applied d txn l cells batch (r.applyBatch d txn cells batch).1
          (r.applyBatch d txn cells batch).2.2 := by
  unfold applyBatch
  cases hopen : openBatch d txn with
  | error status =>
      left
      refine ⟨rfl, fun s hs => ?_⟩
      obtain ⟨m, -, rfl⟩ := List.mem_map.1 hs
      exact isSuccess_refusal hopen
  | ok v =>
      right
      obtain ⟨w, hfind, hphase, hview⟩ := of_openBatch hopen
      obtain ⟨hload, hfaithful⟩ := Visibility.faithful_load hview
      exact ⟨w, v.lineage, hfind, hphase, hload, applied_applyEach txn hd r hfaithful cells batch⟩

end Region

end Multiversion
