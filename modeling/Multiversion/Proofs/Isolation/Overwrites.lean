import Mathlib.Data.List.Find
import Multiversion.Proofs.Isolation.Runs
import Multiversion.Proofs.Pipeline.RowOutcomes

/-!
# Overwriting

Whether a mutation may be written depends on the versions that it finds in its row.  They stand newest
first, and the newest one that conflicts with the write decides.

* `Lineage.newestConflict` — the version that decides about a write;
* `Region.Carried` — mutations carried out one after the other, with what each of them does;
* `Region.PlainWrite` — what a mutation of a plain transaction does with the cells that it finds;
* `Region.AdditiveInsert` — the same for an insert of an additive transaction.

Main statements: `Region.applyBatch_plain` — a plain transaction overwrites exactly what its snapshot
sees and what is gone, and touches nothing else; `Region.applyBatch_additive` — an additive insert is
accepted exactly if the newest conflicting version is additive, whatever lies below it.
-/

namespace Multiversion

/-- The transaction as a reader of its snapshot. -/
def View.snapshot (txn : View) : View := { txn with isolation := .snapshotIsolation }

/-- **Conflict is the complement of sight**: work does not stand in the way of a write if the writer's
snapshot sees it, or if it is gone. -/
theorem Fate.conflictsWith_eq_false_iff {f : Fate} {txn : View} :
    f.conflictsWith txn = false ↔ f.isVisibleTo txn.snapshot = true ∨ f.isDead = true := by
  cases f with
  | own => simp [conflictsWith, isVisibleTo]
  | committedInto ancestor commit =>
      by_cases hown : ancestor = txn.id
      · simp [conflictsWith, isVisibleTo, View.snapshot, hown]
      · simp [conflictsWith, isVisibleTo, isDead, View.snapshot, hown, ← Timestamp.not_lt]
  | committed commit viaParents =>
      simp [conflictsWith, isVisibleTo, isDead, View.snapshot, ← Timestamp.not_lt]
  | active id timedOut => simp [conflictsWith, isVisibleTo, isDead, View.snapshot]
  | rolledBack => simp [conflictsWith, isDead]

/-- Whether the record of a transaction calls it additive. -/
def Directory.isAdditive (d : Directory) (id : TxnId) : Bool := (d.find? id).any (·.additive)

namespace Lineage

variable {l : Lineage} {d : Directory} {txn : View} {cells : List Cell}

/-- Whether a version conflicts with a write. -/
def conflicts (l : Lineage) (d : Directory) (txn : View) (c : Cell) : Bool :=
  match l.fateOf d c with
  | .ok f => f.conflictsWith txn
  | .error _ => false

/-- The newest of some versions, newest first, that conflicts with a write. -/
def newestConflict (l : Lineage) (d : Directory) (txn : View) (cells : List Cell) : Option Cell :=
  cells.find? (l.conflicts d txn)

/-- The fates of some versions can be decided, and the records of their writers can be read. -/
structure Attested (l : Lineage) (d : Directory) (cells : List Cell) : Prop where
  resolves : l.Resolves d cells
  recorded : ∀ c ∈ cells, (d.find? c.writer).isSome = true

theorem Attested.filter {cells : List Cell} (h : l.Attested d cells) (p : Cell → Bool) :
    l.Attested d (cells.filter p) where
  resolves c hc := h.resolves c (List.mem_of_mem_filter hc)
  recorded c hc := h.recorded c (List.mem_of_mem_filter hc)

theorem conflicts_of_fateOf {c : Cell} {f : Fate} (h : l.fateOf d c = .ok f) :
    l.conflicts d txn c = f.conflictsWith txn := by
  simp [conflicts, h]

/-- The transaction's own versions do not conflict with its writes. -/
theorem fateOf_own {c : Cell} (hown : l.contains c.writer = true) : l.fateOf d c = .ok .own := by
  simp [fateOf, resolveWriter, hown]

/-- What stands in the way of a write, where all writers can be resolved. -/
theorem obstacle_of_resolves (h : l.Resolves d cells) :
    l.obstacle d txn cells =
      match l.newestConflict d txn cells with
      | none => .none
      | some c => .conflict c.writer := by
  induction cells with
  | nil => rfl
  | cons c rest ih =>
      obtain ⟨f, hf⟩ := h c List.mem_cons_self
      have hrest := ih fun c hc => h c (List.mem_cons_of_mem _ hc)
      rw [newestConflict] at hrest ⊢
      rw [obstacle, hf, List.find?_cons, conflicts_of_fateOf hf]
      cases hconflict : f.conflictsWith txn with
      | true => simp [hconflict]
      | false => simp [hconflict, hrest]

/-- No version conflicts with a write exactly if the writer's snapshot sees each of them or it is gone. -/
theorem newestConflict_eq_none_iff (h : l.Resolves d cells) :
    l.newestConflict d txn cells = none ↔
      ∀ c ∈ cells, ∃ f, l.fateOf d c = .ok f ∧
        (f.isVisibleTo txn.snapshot = true ∨ f.isDead = true) := by
  rw [newestConflict, List.find?_eq_none]
  refine forall₂_congr fun c hc => ?_
  obtain ⟨f, hf⟩ := h c hc
  rw [conflicts_of_fateOf hf, Bool.not_eq_true, Fate.conflictsWith_eq_false_iff]
  constructor
  · exact fun hsees => ⟨f, hf, hsees⟩
  · rintro ⟨f', hf', hsees⟩
    cases hf.symm.trans hf'
    exact hsees

end Lineage

namespace Region

variable {r : Region} {d : Directory} {txn : View} {l : Lineage} {v : Visibility}

/-- Mutations carried out one after the other: `W` tells what each of them does with the cells that it
finds. -/
inductive Carried (W : CellStore → Mutation → Status → CellStore → Prop) :
    CellStore → List Mutation → List Status → CellStore → Prop
  | nil (cells : CellStore) : Carried W cells [] [] cells
  | cons {now later final : CellStore} {m : Mutation} {batch : List Mutation} {status : Status}
      {statuses : List Status} (hfirst : W now m status later)
      (hrest : Carried W later batch statuses final) :
      Carried W now (m :: batch) (status :: statuses) final

/-- A batch of one mutation does what the mutation does. -/
theorem Carried.single {W : CellStore → Mutation → Status → CellStore → Prop} {now final : CellStore}
    {m : Mutation} {status : Status} (h : Carried W now [m] [status] final) : W now m status final := by
  cases h with
  | cons hfirst hrest =>
      cases hrest
      exact hfirst

/-- Rows that no mutation touches stay as they are. -/
theorem Carried.versions_eq {W : CellStore → Mutation → Status → CellStore → Prop}
    {now final : CellStore} {batch : List Mutation} {statuses : List Status}
    (h : Carried W now batch statuses final) {key : Bytes}
    (hkey : ∀ m ∈ batch, ∀ now status later, W now m status later →
      later.versions key = now.versions key) :
    final.versions key = now.versions key := by
  induction h with
  | nil => rfl
  | cons hfirst hrest ih =>
      exact (ih fun m hm => hkey m (List.mem_cons_of_mem _ hm)).trans
        (hkey _ List.mem_cons_self _ _ _ hfirst)

/-- The cells after a mutation with its status. -/
def after (txn : View) (now : CellStore) (m : Mutation) (status : Status) : CellStore :=
  if status.isSuccess then now.put m.key (cellOf txn m) else now

/-- A batch carries out its mutations one after the other, over cells in which other transactions have
written what they had written before it. -/
theorem carried_applyBatch {cells : CellStore} {batch : List Mutation}
    {W : CellStore → Mutation → Status → CellStore → Prop}
    (hW : ∀ m ∈ batch, ∀ now, SameOthers txn now cells →
      W now m (r.answer d txn now m) (after txn now m (r.answer d txn now m))) :
    Carried W cells batch (r.applyBatch d txn cells batch).1
      (r.applyBatch d txn cells batch).2.2 := by
  obtain ⟨hstatuses, hcells⟩ := applyBatch_eq r d txn cells batch
  rw [hstatuses, hcells]
  suffices hfrom : ∀ (rest : List Mutation) (now : CellStore), (∀ m ∈ rest, m ∈ batch) →
      SameOthers txn now cells → Carried W now rest (rest.map (r.answer d txn cells))
        (putAll txn (rest.filter fun m => (r.answer d txn cells m).isSuccess) now) from
    hfrom batch cells (fun _ hm => hm) fun _ => rfl
  intro rest
  induction rest with
  | nil => exact fun now _ _ => .nil now
  | cons m rest ih =>
      intro now hrest hsame
      have hfirst := hW m (hrest m List.mem_cons_self) now hsame
      rw [answer_congr hsame] at hfirst
      have hafter : SameOthers txn (after txn now m (r.answer d txn cells m)) cells := by
        unfold after
        split
        · exact fun key => (sameOthers_put txn m now key).trans (hsame key)
        · exact hsame
      have htail := ih _ (fun m hm => hrest m (List.mem_cons_of_mem _ hm)) hafter
      refine .cons hfirst ?_
      rw [List.filter_cons]
      unfold after at htail ⊢
      split at htail <;> rename_i hsuccess
      · rwa [if_pos hsuccess, if_pos hsuccess]
      · rwa [if_neg hsuccess, if_neg hsuccess]

/-- An active transaction whose ancestors can be read may write. -/
theorem openBatch_of_active (hactive : d.phase txn.id = .ok .active)
    (hload : Lineage.load d txn = .ok l) :
    openBatch d txn = .ok { lineage := l } := by
  simp [openBatch, hactive, Phase.isTerminal, Visibility.load, hload]

/-- The status of a row that the region takes, where all writers can be resolved. -/
theorem answer_of_resolves (hopen : openBatch d txn = .ok v) {now : CellStore} {m : Mutation}
    (hm : r.takes m.key = true) (hresolves : v.lineage.Resolves d (now.get m.key .everything)) :
    r.answer d txn now m =
      match v.lineage.newestConflict d txn (now.get m.key .everything) with
      | none => .success
      | some c => conflictStatus d txn m c.writer := by
  rw [answer_of_takes hopen hm, Lineage.obstacle_of_resolves hresolves]
  cases v.lineage.newestConflict d txn (now.get m.key .everything) <;> rfl

theorem SameOthers.mem {now cells : CellStore} (h : SameOthers txn now cells) {key : Bytes} {c : Cell}
    (hc : c ∈ now.versions key) (hother : c.writer ≠ txn.id) : c ∈ cells.versions key := by
  have hmem : c ∈ (now.versions key).filter (·.writer ≠ txn.id) :=
    List.mem_filter.2 ⟨hc, by simpa using hother⟩
  rw [h key] at hmem
  exact (List.mem_filter.1 hmem).1

/-! ## Plain transactions -/

/-- The message of a conflict. -/
def conflictMessage (txn : View) (other : TxnId) (m : Mutation) : String :=
  s!"{txn.id} conflicts with {other} on row {Bytes.quoted m.key}"

/-- What a mutation of a plain transaction does with the cells that it finds. -/
structure PlainWrite (r : Region) (d : Directory) (txn : View) (l : Lineage) (now : CellStore)
    (m : Mutation) (status : Status) (later : CellStore) : Prop where
  notRun : status = .notRun ↔ r.contains m.key = false ∨ r.isLocked m.key = true
  success : status = .success ↔ r.contains m.key = true ∧ r.isLocked m.key = false ∧
    ∀ c ∈ now.versions m.key, ∃ f, l.fateOf d c = .ok f ∧
      (f.isVisibleTo txn.snapshot = true ∨ f.isDead = true)
  -- Every other status names the writer of the newest version that conflicts.
  conflict : status ≠ .notRun → status ≠ .success →
    ∃ c, l.newestConflict d txn (now.versions m.key) = some c ∧
      status = .writeConflict (conflictMessage txn c.writer m)
  own : status = .success → (later.versions m.key).filter (·.writer = txn.id) =
    [{ timestamp := txn.begin, writer := txn.id,
       value := if m.kind = .delete then none else some m.value, commit := none }]
  others : status = .success → (later.versions m.key).filter (·.writer ≠ txn.id) =
    (now.versions m.key).filter (·.writer ≠ txn.id)
  elsewhere : ∀ key, key ≠ m.key → later.versions key = now.versions key
  unchanged : status ≠ .success → later = now

/-- A conflict of a plain transaction, with a writer that is recorded. -/
theorem conflictStatus_of_plain (hplain : txn.additive = false) {other : TxnId}
    (hrecorded : (d.find? other).isSome = true) (m : Mutation) :
    conflictStatus d txn m other = .writeConflict (conflictMessage txn other m) := by
  obtain ⟨w, hw⟩ := Option.isSome_iff_exists.1 hrecorded
  simp [conflictStatus, Directory.get_eq_ok_iff.2 hw, hplain, conflictMessage]

/-- The versions that a write examines are all that could conflict with it, if no version of another
transaction has the last timestamp. -/
theorem newestConflict_get {now : CellStore} {key : Bytes} (hown : l.contains txn.id = true)
    (hcovered : ∀ c ∈ now.versions key, c.writer ≠ txn.id → c.timestamp < .latest) :
    l.newestConflict d txn (now.get key .everything) = l.newestConflict d txn (now.versions key) := by
  rw [CellStore.get_everything, Lineage.newestConflict, Lineage.newestConflict, List.find?_filter]
  refine List.find?_congr fun c hc => ?_
  by_cases hwriter : c.writer = txn.id
  · have hfate : l.fateOf d c = .ok .own := Lineage.fateOf_own (hwriter ▸ hown)
    simp [Lineage.conflicts_of_fateOf hfate, Fate.conflictsWith]
  · have hlt := hcovered c hc hwriter
    simp [Selection.covers, Selection.everything, Timestamp.earliest_le, hlt]

/-- The versions of a row after an own write, over a row whose other versions are known. -/
theorem attested_of_sameOthers {now cells : CellStore} (hsame : SameOthers txn now cells) {key : Bytes}
    (hown : l.contains txn.id = true) (hrecorded : (d.find? txn.id).isSome = true)
    (hattested : l.Attested d (cells.versions key)) : l.Attested d (now.versions key) := by
  constructor
  · intro c hc
    by_cases hwriter : c.writer = txn.id
    · exact ⟨.own, Lineage.fateOf_own (hwriter ▸ hown)⟩
    · exact hattested.resolves c (hsame.mem hc hwriter)
  · intro c hc
    by_cases hwriter : c.writer = txn.id
    · rwa [hwriter]
    · exact hattested.recorded c (hsame.mem hc hwriter)

/-- A mutation that is not carried out leaves the cells as they are. -/
theorem PlainWrite.of_failed {now : CellStore} {m : Mutation} {status : Status}
    (hfailed : status ≠ .success) (hnotRun : status = .notRun ↔ r.takes m.key = false)
    (hunseen : r.takes m.key = true → ¬ ∀ c ∈ now.versions m.key, ∃ f, l.fateOf d c = .ok f ∧
      (f.isVisibleTo txn.snapshot = true ∨ f.isDead = true))
    (hconflict : status ≠ .notRun → ∃ c, l.newestConflict d txn (now.versions m.key) = some c ∧
      status = .writeConflict (conflictMessage txn c.writer m)) :
    r.PlainWrite d txn l now m status now where
  notRun := hnotRun.trans takes_eq_false_iff
  success := ⟨fun h => absurd h hfailed,
    fun ⟨hinside, hfree, hseen⟩ => absurd hseen (hunseen (takes_eq_true_iff.2 ⟨hinside, hfree⟩))⟩
  conflict h _ := hconflict h
  own h := absurd h hfailed
  others h := absurd h hfailed
  elsewhere _ _ := rfl
  unchanged _ := rfl

/-- A mutation that is carried out replaces the transaction's own version. -/
theorem PlainWrite.put {now : CellStore} {m : Mutation} (hm : r.takes m.key = true)
    (hseen : ∀ c ∈ now.versions m.key, ∃ f, l.fateOf d c = .ok f ∧
      (f.isVisibleTo txn.snapshot = true ∨ f.isDead = true)) :
    r.PlainWrite d txn l now m .success (now.put m.key (cellOf txn m)) where
  notRun := by simp [← takes_eq_false_iff, hm]
  success := by simpa [takes_eq_true_iff.1 hm] using hseen
  conflict _ h := absurd rfl h
  own _ := by
    rw [CellStore.versions_put, if_pos rfl]
    exact Cell.filter_replace_self (cellOf txn m) _
  others _ := sameOthers_put txn m now m.key
  elsewhere key hkey := by rw [CellStore.versions_put, if_neg hkey.symm]
  unchanged h := absurd rfl h

/-- A mutation of a plain transaction, over a row whose writers are known. -/
theorem plainWrite_answer (hopen : openBatch d txn = .ok v) (hplain : txn.additive = false)
    {now : CellStore} {m : Mutation}
    (hcovered : ∀ c ∈ now.versions m.key, c.writer ≠ txn.id → c.timestamp < .latest)
    (hattested : r.takes m.key = true → v.lineage.Attested d (now.versions m.key)) :
    r.PlainWrite d txn v.lineage now m (r.answer d txn now m)
      (after txn now m (r.answer d txn now m)) := by
  cases hm : r.takes m.key with
  | false =>
      rw [answer_of_not_takes hopen hm]
      exact .of_failed (by decide) (by simp [hm]) (by simp [hm]) fun h => absurd rfl h
  | true =>
      obtain ⟨-, -, -, hview⟩ := of_openBatch hopen
      have hown := Lineage.contains_of_load (Visibility.faithful_load hview).1
      have hresolves := (hattested hm).resolves
      have hfree : v.lineage.newestConflict d txn (now.versions m.key) = none ↔ _ :=
        Lineage.newestConflict_eq_none_iff hresolves
      have houtcome := answer_of_resolves hopen hm fun c hc => hresolves c (List.mem_filter.1 hc).1
      rw [newestConflict_get hown hcovered] at houtcome
      cases hnewest : v.lineage.newestConflict d txn (now.versions m.key) with
      | none =>
          have hanswer : r.answer d txn now m = .success := by rw [houtcome, hnewest]
          rw [hanswer]
          exact .put hm (hfree.1 hnewest)
      | some c =>
          have hc : c ∈ now.versions m.key := List.mem_of_find?_eq_some hnewest
          have hanswer : r.answer d txn now m = .writeConflict (conflictMessage txn c.writer m) := by
            rw [houtcome, hnewest]
            exact conflictStatus_of_plain hplain ((hattested hm).recorded c hc) m
          rw [hanswer]
          refine .of_failed (by simp [Status.writeConflict]) (by simp [hm, Status.writeConflict])
            (fun _ hseen => ?_) fun _ => ⟨c, hnewest, rfl⟩
          exact Option.some_ne_none c (hnewest.symm.trans (hfree.2 hseen))

/-- **A plain write overwrites nothing unseen.**  A mutation of an active transaction that is not additive,
and whose ancestors can be read, succeeds exactly if its row lies in the region, no concurrent batch holds
the lock of the row, and the transaction's snapshot sees every version in it that is not gone; it replaces
the transaction's own version and leaves the others in their order.  Any other mutation, and every row that
no mutation names, leaves the cells as they are. -/
theorem applyBatch_plain (hactive : d.phase txn.id = .ok .active) (hplain : txn.additive = false)
    (hload : Lineage.load d txn = .ok l) {cells : CellStore}
    (hcovered : ∀ key, ∀ c ∈ cells.versions key, c.timestamp < .latest) {batch : List Mutation}
    (hattested : ∀ m ∈ batch, r.contains m.key = true → r.isLocked m.key = false →
      l.Attested d (cells.versions m.key)) :
    Carried (r.PlainWrite d txn l) cells batch (r.applyBatch d txn cells batch).1
        (r.applyBatch d txn cells batch).2.2 ∧
      ∀ key, (∀ m ∈ batch, m.key ≠ key) →
        (r.applyBatch d txn cells batch).2.2.versions key = cells.versions key := by
  have hopen := openBatch_of_active hactive hload
  obtain ⟨w, hw, -, -⟩ := of_openBatch hopen
  have hown := Lineage.contains_of_load hload
  have hcarried : Carried (r.PlainWrite d txn l) cells batch (r.applyBatch d txn cells batch).1
      (r.applyBatch d txn cells batch).2.2 := by
    refine carried_applyBatch fun m hm now hsame => plainWrite_answer hopen hplain ?_ fun htaken => ?_
    · exact fun c hc hother => hcovered m.key c (hsame.mem hc hother)
    · obtain ⟨hinside, hfree⟩ := takes_eq_true_iff.1 htaken
      exact attested_of_sameOthers hsame hown (Option.isSome_of_eq_some hw)
        (hattested m hm hinside hfree)
  refine ⟨hcarried, fun key hkey => hcarried.versions_eq fun m hm now status later hwrite => ?_⟩
  exact hwrite.elsewhere key (hkey m hm).symm

/-! ## Additive transactions -/

/-- What an insert of an additive transaction does with the cells that it finds. -/
structure AdditiveInsert (d : Directory) (txn : View) (l : Lineage) (now : CellStore) (m : Mutation)
    (status : Status) (later : CellStore) : Prop where
  accepted : status = .success ↔
    ∀ c, l.newestConflict d txn (now.get m.key .everything) = some c → d.isAdditive c.writer = true
  written : status = .success → later = now.put m.key (cellOf txn m)
  refused : ∀ c, l.newestConflict d txn (now.get m.key .everything) = some c →
    d.isAdditive c.writer = false →
      status = .writeConflict (conflictMessage txn c.writer m) ∧ later = now
  -- Additive work alone never stands in the way.
  harmless : (∀ c ∈ now.get m.key .everything, l.conflicts d txn c = true →
    d.isAdditive c.writer = true) → status = .success

/-- A conflict of an additive insert, with a writer that is recorded. -/
theorem conflictStatus_of_additive (hadditive : txn.additive = true) {other : TxnId}
    (hrecorded : (d.find? other).isSome = true) {m : Mutation} (hinsert : m.kind.isInsertLike = true) :
    conflictStatus d txn m other =
      if d.isAdditive other then .success else .writeConflict (conflictMessage txn other m) := by
  obtain ⟨w, hw⟩ := Option.isSome_iff_exists.1 hrecorded
  simp [conflictStatus, Directory.get_eq_ok_iff.2 hw, hadditive, hinsert, Directory.isAdditive, hw,
    conflictMessage]

/-- An insert of an additive transaction, over a row whose writers are known. -/
theorem additiveInsert_answer (hopen : openBatch d txn = .ok v) (hadditive : txn.additive = true)
    {now : CellStore} {m : Mutation} (hinsert : m.kind.isInsertLike = true)
    (hm : r.takes m.key = true) (hattested : v.lineage.Attested d (now.get m.key .everything)) :
    AdditiveInsert d txn v.lineage now m (r.answer d txn now m)
      (after txn now m (r.answer d txn now m)) := by
  rw [answer_of_resolves hopen hm hattested.resolves]
  cases hnewest : v.lineage.newestConflict d txn (now.get m.key .everything) with
  | none =>
      exact {
        accepted := by simp [hnewest]
        written := fun _ => rfl
        refused := fun c hc => by simp [hnewest] at hc
        harmless := fun _ => rfl }
  | some c =>
      have hc : c ∈ now.get m.key .everything := List.mem_of_find?_eq_some hnewest
      have hconflicts : v.lineage.conflicts d txn c = true := List.find?_some hnewest
      dsimp only
      rw [conflictStatus_of_additive hadditive (hattested.recorded c hc) hinsert]
      cases hkind : d.isAdditive c.writer with
      | true =>
          exact {
            accepted := by simp [hnewest, hkind]
            written := fun _ => rfl
            refused := fun c' hc' hplain => by
              cases hnewest.symm.trans hc'
              simp [hkind] at hplain
            harmless := fun _ => rfl }
      | false =>
          exact {
            accepted := by simp [hnewest, hkind, Status.writeConflict]
            written := nofun
            refused := fun c' hc' _ => by
              cases hnewest.symm.trans hc'
              exact ⟨rfl, rfl⟩
            harmless := fun hall => by simp [hall c hc hconflicts] at hkind }

/-- **Additive inserts look at one version only.**  An insert of an active additive transaction into a row
whose lock is free is accepted exactly if the newest version that conflicts with it, if there is one, is that
of an additive transaction; if it is not, the insert is refused and leaves the cells as they are.  Older
versions play no part.  Over a row whose lock is held, the insert is not run. -/
theorem applyBatch_additive (hactive : d.phase txn.id = .ok .active) (hadditive : txn.additive = true)
    (hload : Lineage.load d txn = .ok l) (cells : CellStore) (batch : List Mutation) :
    Carried (fun now m status later => m.kind.isInsertLike = true → r.contains m.key = true →
        (r.isLocked m.key = false → l.Attested d (now.get m.key .everything) →
          AdditiveInsert d txn l now m status later) ∧
        (r.isLocked m.key = true → status = .notRun ∧ later = now))
      cells batch (r.applyBatch d txn cells batch).1 (r.applyBatch d txn cells batch).2.2 := by
  have hopen := openBatch_of_active hactive hload
  refine carried_applyBatch fun m _ now _ hinsert hinside => ⟨fun hfree hattested => ?_, fun hlocked => ?_⟩
  · exact additiveInsert_answer hopen hadditive hinsert (takes_eq_true_iff.2 ⟨hinside, hfree⟩) hattested
  · rw [answer_of_not_takes hopen (takes_eq_false_iff.2 (.inr hlocked))]
    exact ⟨rfl, rfl⟩

end Region

namespace StackedRow

def region : Region := { name := "r", range := { stop := some [3] } }

/-- An additive transaction that begins first. -/
def early : View := { id := ⟨1⟩, begin := ⟨1⟩, additive := true }

/-- A plain transaction that writes a row and commits. -/
def plain : View := { id := ⟨2⟩, begin := ⟨2⟩ }

/-- An additive transaction that inserts over it. -/
def stacked : View := { id := ⟨4⟩, begin := ⟨4⟩, additive := true }

/-- A plain transaction that begins last. -/
def late : View := { id := ⟨5⟩, begin := ⟨5⟩ }

/-- The work of an additive transaction on top of that of a plain one. -/
def engine : Engine :=
  ({ store := .single (.empty {}) } : Engine).run
    [.begin early, .begin plain,
      .applyBatch region false plain [{ kind := .insert, key := [1], value := [2] }],
      .commit ⟨2⟩ ⟨3⟩, .begin stacked,
      .applyBatch region false stacked [{ kind := .insert, key := [1], value := [4] }], .begin late]

def insert : Mutation := { kind := .insert, key := [1], value := [1] }

/-- A mutation of a row whose lock a concurrent batch holds. -/
def blocked : Mutation := { insert with key := [0] }

def contested : Region := { region with locked := [blocked.key] }

/-- A row with a conflict, an empty row, a row whose lock is held, and a row outside the region. -/
def batch : List Mutation := [insert, { insert with key := [2] }, blocked, { insert with key := [3] }]

theorem find?_active :
    engine.directory.find? early.id = some early ∧ engine.directory.find? late.id = some late := by
  decide +kernel

theorem phase_early : engine.directory.phase early.id = .ok .active :=
  Directory.phase_eq_ok_iff.2 ⟨early, find?_active.1, rfl⟩

theorem phase_late : engine.directory.phase late.id = .ok .active :=
  Directory.phase_eq_ok_iff.2 ⟨late, find?_active.2, rfl⟩

theorem known (key : Bytes) : ∀ c ∈ engine.cells.versions key, c.timestamp < .latest ∧
    (engine.directory.find? c.writer).isSome = true ∧
    ∀ l ∈ [Lineage.ofRoot early, .ofRoot late], (l.fateOf engine.directory c).toOption.isSome = true := by
  have hrows : ∀ row ∈ engine.cells.rows.toList, ∀ c ∈ row.2, c.timestamp < .latest ∧
      (engine.directory.find? c.writer).isSome = true ∧
      ∀ l ∈ [Lineage.ofRoot early, .ofRoot late],
        (l.fateOf engine.directory c).toOption.isSome = true := by
    decide +kernel
  unfold CellStore.versions
  cases hrow : engine.cells.rows[key]? with
  | none => simp
  | some cells => exact hrows (key, cells) (Std.ExtTreeMap.mem_toList_iff_getElem?_eq_some.2 hrow)

theorem attested {l : Lineage} (hl : l ∈ [Lineage.ofRoot early, .ofRoot late]) (key : Bytes) :
    l.Attested engine.directory (engine.cells.versions key) where
  resolves c hc := by
    have hresolved := (known key c hc).2.2 l hl
    cases hfate : l.fateOf engine.directory c with
    | ok f => exact ⟨f, rfl⟩
    | error e => simp [hfate, Except.toOption] at hresolved
  recorded c hc := (known key c hc).2.1

theorem statuses :
    (region.applyBatch engine.directory early engine.cells [insert]).1 = [.success] ∧
      (contested.applyBatch engine.directory late engine.cells batch).1 =
        [.writeConflict (Region.conflictMessage late ⟨4⟩ insert), .success, .notRun, .notRun] ∧
      (contested.applyBatch engine.directory late engine.cells [blocked]).1 = [.notRun] := by
  decide +kernel

end StackedRow

/-- The plain transaction that begins last meets the additive insert in one row, writes another row, and
leaves the row whose lock is held and the one outside the region alone. -/
theorem applyBatch_plain_fourRows :
    Region.Carried
      (StackedRow.contested.PlainWrite StackedRow.engine.directory StackedRow.late
        (.ofRoot StackedRow.late))
      StackedRow.engine.cells StackedRow.batch
      [.writeConflict (Region.conflictMessage StackedRow.late ⟨4⟩ StackedRow.insert), .success, .notRun,
        .notRun]
      (StackedRow.contested.applyBatch StackedRow.engine.directory StackedRow.late
        StackedRow.engine.cells StackedRow.batch).2.2 := by
  rw [← StackedRow.statuses.2.1]
  exact (Region.applyBatch_plain StackedRow.phase_late rfl (Lineage.load_root rfl)
    (fun key c hc => (StackedRow.known key c hc).1) fun m _ _ _ => StackedRow.attested (by simp) m.key).1

/-- The additive transaction that begins first is accepted over the additive insert, and leaves its version
in the row. -/
theorem applyBatch_additive_stacked :
    Region.AdditiveInsert StackedRow.engine.directory StackedRow.early (.ofRoot StackedRow.early)
      StackedRow.engine.cells StackedRow.insert .success
      (StackedRow.region.applyBatch StackedRow.engine.directory StackedRow.early
        StackedRow.engine.cells [StackedRow.insert]).2.2 := by
  have hcarried := Region.applyBatch_additive StackedRow.phase_early rfl (Lineage.load_root rfl)
    (r := StackedRow.region) StackedRow.engine.cells [StackedRow.insert]
  rw [StackedRow.statuses.1] at hcarried
  refine (hcarried.single rfl (by decide)).1 rfl ?_
  rw [CellStore.get_everything]
  exact (StackedRow.attested (by simp) _).filter _

/-- **An additive insert can be accepted over plain work that it conflicts with**, if additive work lies
on top of it. -/
theorem not_refused_over_plain :
    ¬ ∀ (d : Directory) (txn : View) (r : Region) (l : Lineage) (cells : CellStore) (m : Mutation),
      d.find? txn.id = some txn → txn.phase = .active → txn.additive = true →
      Lineage.load d txn = .ok l → m.kind.isInsertLike = true → r.contains m.key = true →
      r.isLocked m.key = false → l.Attested d (cells.versions m.key) →
      (∃ c ∈ cells.versions m.key, l.conflicts d txn c = true ∧ d.isAdditive c.writer = false) →
      (∃ detail, (r.applyBatch d txn cells [m]).1 = [.writeConflict detail]) ∧
        (r.applyBatch d txn cells [m]).2.2.versions m.key = cells.versions m.key := by
  intro h
  have hplain : ∃ c ∈ StackedRow.engine.cells.versions [1],
      (Lineage.ofRoot StackedRow.early).conflicts StackedRow.engine.directory StackedRow.early c = true ∧
        StackedRow.engine.directory.isAdditive c.writer = false := by
    decide +kernel
  obtain ⟨⟨detail, hconflict⟩, -⟩ := h StackedRow.engine.directory StackedRow.early StackedRow.region
    (.ofRoot StackedRow.early) StackedRow.engine.cells StackedRow.insert StackedRow.find?_active.1 rfl rfl
    (Lineage.load_root rfl) rfl (by decide) rfl (StackedRow.attested (by simp) _) hplain
  simp [StackedRow.statuses, Status.writeConflict] at hconflict

namespace StrayChild

/-- A transaction whose parent was never recorded. -/
def view : View := { id := ⟨2⟩, begin := ⟨2⟩, parent := some ⟨1⟩ }

def engine : Engine := ({ store := .single (.empty {}) } : Engine).run [.begin view]

end StrayChild

/-- **A plain write that overwrites nothing unseen need not be accepted**: if the ancestors of the transaction
cannot be read, every row is refused; and a row of the region is not run while its lock is held. -/
theorem not_accepted_of_strayChild_or_locked :
    (¬ ∀ (d : Directory) (txn : View) (r : Region) (cells : CellStore) (m : Mutation),
      d.find? txn.id = some txn → txn.phase = .active → txn.additive = false →
      (∀ key, ∀ c ∈ cells.versions key, c.timestamp < .latest) →
      (∀ c ∈ cells.versions m.key, ∃ l f, Lineage.load d txn = .ok l ∧ l.fateOf d c = .ok f) →
      r.contains m.key = true → r.isLocked m.key = false →
      (∀ c ∈ cells.versions m.key, ∃ l f, Lineage.load d txn = .ok l ∧ l.fateOf d c = .ok f ∧
        (f.isVisibleTo txn.snapshot = true ∨ f.isDead = true)) →
      (r.applyBatch d txn cells [m]).1 = [.success]) ∧
    ¬ ∀ (d : Directory) (txn : View) (r : Region) (l : Lineage) (cells : CellStore) (m : Mutation),
      d.find? txn.id = some txn → txn.phase = .active → txn.additive = false →
      Lineage.load d txn = .ok l → (∀ key, ∀ c ∈ cells.versions key, c.timestamp < .latest) →
      l.Attested d (cells.versions m.key) →
      ((r.applyBatch d txn cells [m]).1 = [.notRun] ↔ r.contains m.key = false) := by
  constructor
  · intro h
    have hempty : ∀ key, StrayChild.engine.cells.versions key = [] := by
      simp [StrayChild.engine, Engine.run, Engine.step, Engine.submit, CellStore.versions]
    obtain ⟨hrecorded, hstatus⟩ :
        StrayChild.engine.directory.find? StrayChild.view.id = some StrayChild.view ∧
          (StackedRow.region.applyBatch StrayChild.engine.directory StrayChild.view
            StrayChild.engine.cells [StackedRow.insert]).1.map (·.isSuccess) = [false] := by
      decide +kernel
    rw [h StrayChild.engine.directory StrayChild.view StackedRow.region StrayChild.engine.cells
      StackedRow.insert hrecorded rfl rfl (by simp [hempty]) (by simp [hempty]) (by decide) rfl
      (by simp [hempty])] at hstatus
    exact absurd hstatus (by decide)
  · intro h
    have houtside := (h StackedRow.engine.directory StackedRow.late StackedRow.contested
      (.ofRoot StackedRow.late) StackedRow.engine.cells StackedRow.blocked StackedRow.find?_active.2 rfl rfl
      (Lineage.load_root rfl) (fun key c hc => (StackedRow.known key c hc).1)
      (StackedRow.attested (by simp) _)).1 StackedRow.statuses.2.2
    exact absurd houtside (by decide)

end Multiversion
