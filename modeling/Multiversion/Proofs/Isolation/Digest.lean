import Multiversion.Proofs.Isolation.Timeline

/-!
# Cells as a digest of the writes

Of all the successful writes to a row, its versions keep the last one of every writer, by descending
begin timestamp.  Versions disappear only when a reader has found their writer's work gone.

* `lastWrite?` — the last write of a transaction to a row;
* `CellStore.Current` — versions are last writes, one for each writer, newest first;
* `Digest` — moreover no version is missing, other than of fallen work.

Both are kept by a successful write and by hand-offs (`Digest.applied`, `Digest.tidied`).
-/

namespace Multiversion

/-- The last write of a transaction to a row. -/
def lastWrite? (writes : List Write) (writer : TxnId) (key : Bytes) : Option Write :=
  writes.find? fun w => w.writer = writer && w.key = key

theorem lastWrite?_cons (w : Write) (writes : List Write) (writer : TxnId) (key : Bytes) :
    lastWrite? (w :: writes) writer key =
      if w.writer = writer ∧ w.key = key then some w else lastWrite? writes writer key := by
  unfold lastWrite?
  rw [List.find?_cons]
  by_cases h : w.writer = writer ∧ w.key = key
  · simp [h]
  · rw [if_neg h]
    split
    · rename_i htrue
      simp only [Bool.and_eq_true, decide_eq_true_eq] at htrue
      exact absurd htrue h
    · rfl

theorem of_lastWrite {writes : List Write} {writer : TxnId} {key : Bytes} {w : Write}
    (h : lastWrite? writes writer key = some w) : w ∈ writes ∧ w.writer = writer ∧ w.key = key := by
  have hsome := List.find?_some h
  simp only [Bool.and_eq_true, decide_eq_true_eq] at hsome
  exact ⟨List.mem_of_find?_eq_some h, hsome⟩

theorem succeeded_eq_nil {batch : List Mutation} {statuses : List Status}
    (h : ∀ s ∈ statuses, s.isSuccess = false) : succeeded batch statuses = [] := by
  induction batch generalizing statuses with
  | nil => rfl
  | cons m batch ih =>
      cases statuses with
      | nil => rfl
      | cons s statuses =>
          rw [succeeded, if_neg (by simp [h s List.mem_cons_self])]
          exact ih fun x hx => h x (List.mem_cons_of_mem _ hx)

namespace CellStore

variable {cells : CellStore} {key : Bytes} {id : TxnId}

theorem mem_writers_put {row : Bytes} {c : Cell} :
    id ∈ ((cells.put row c).versions key).map Cell.writer ↔
      id ∈ (cells.versions key).map Cell.writer ∨ row = key ∧ id = c.writer := by
  rw [versions_put]
  split
  · rename_i hkey
    simp only [List.mem_map, Cell.mem_replace, hkey, true_and]
    constructor
    · rintro ⟨x, rfl | ⟨hx, -⟩, rfl⟩
      · exact .inr rfl
      · exact .inl ⟨x, hx, rfl⟩
    · rintro (⟨x, hx, rfl⟩ | rfl)
      · by_cases hwriter : x.writer = c.writer
        · exact ⟨c, .inl rfl, hwriter.symm⟩
        · exact ⟨x, .inr ⟨hx, hwriter⟩, rfl⟩
      · exact ⟨c, .inl rfl, rfl⟩
  · rename_i hkey
    simp [hkey]

/-- A hand-off takes the version that it calls rolled back, and no other. -/
theorem mem_writers_applyTo {handOff : HandOff} :
    id ∈ ((handOff.applyTo cells).2.versions key).map Cell.writer ↔
      id ∈ (cells.versions key).map Cell.writer ∧ handOff ≠ .rolledBack key id := by
  cases handOff with
  | rolledBack row writer =>
      rw [HandOff.applyTo, versions_removeVersion]
      split
      · rename_i hkey
        subst hkey
        simp only [List.mem_map, List.mem_filter, decide_eq_true_eq, ne_eq,
          HandOff.rolledBack.injEq, true_and]
        constructor
        · rintro ⟨c, ⟨hc, hother⟩, rfl⟩
          exact ⟨⟨c, hc, rfl⟩, fun hsame => hother hsame.symm⟩
        · rintro ⟨⟨c, hc, rfl⟩, hother⟩
          exact ⟨c, ⟨hc, fun hsame => hother hsame.symm⟩, rfl⟩
      · rename_i hkey
        simp [hkey]
  | committed row writer ts =>
      have hsame : (Cell.markCommitted writer ts (cells.versions key)).map Cell.writer =
          (cells.versions key).map Cell.writer :=
        Cell.map_markCommitted (fun _ _ => rfl) writer ts _
      rw [HandOff.applyTo, versions_setCommit]
      split
      · simp [hsame]
      · simp

/-- Every version is the last write of its writer; versions stand by descending begin timestamp, one
for each writer. -/
structure Current (cells : CellStore) (writes : List Write) : Prop where
  ordered : ∀ key, Cell.NewestFirst (cells.versions key)
  single : ∀ key, ((cells.versions key).map Cell.writer).Nodup
  current : ∀ key, ∀ c ∈ cells.versions key, ∃ w,
    lastWrite? writes c.writer key = some w ∧ w.value = c.value

namespace Current

variable {writes : List Write}

theorem nil (h : ∀ key, cells.versions key = []) : cells.Current [] where
  ordered key := by simp [h, Cell.NewestFirst]
  single key := by simp [h]
  current key c hc := by simp [h] at hc

theorem put (h : cells.Current writes) {w : Write} {c : Cell} (hwriter : w.writer = c.writer)
    (hvalue : w.value = c.value) : (cells.put w.key c).Current (w :: writes) where
  ordered key := by
    rw [versions_put]
    split
    · exact (h.ordered key).replace _
    · exact h.ordered key
  single key := by
    rw [versions_put]
    split
    · exact Cell.nodup_writers_replace (h.single key) _
    · exact h.single key
  current key x hx := by
    rw [versions_put] at hx
    rw [lastWrite?_cons]
    split at hx
    · rename_i hkey
      rcases Cell.mem_replace.1 hx with rfl | ⟨hx, hother⟩
      · exact ⟨w, if_pos ⟨hwriter, hkey⟩, hvalue⟩
      · rw [if_neg fun hsame => hother (hsame.1.symm.trans hwriter)]
        exact h.current key x hx
    · rename_i hkey
      rw [if_neg fun hsame => hkey hsame.2]
      exact h.current key x hx

theorem applyTo (h : cells.Current writes) (handOff : HandOff) :
    (handOff.applyTo cells).2.Current writes := by
  cases handOff with
  | rolledBack row writer =>
      refine ⟨fun key => ?_, fun key => ?_, fun key c hc => ?_⟩
      · rw [HandOff.applyTo, versions_removeVersion]
        split
        · exact (h.ordered key).filter _
        · exact h.ordered key
      · rw [HandOff.applyTo, versions_removeVersion]
        split
        · exact (List.filter_sublist.map Cell.writer).nodup (h.single key)
        · exact h.single key
      · rw [HandOff.applyTo, versions_removeVersion] at hc
        split at hc
        · exact h.current key c (List.mem_of_mem_filter hc)
        · exact h.current key c hc
  | committed row writer ts =>
      refine ⟨fun key => ?_, fun key => ?_, fun key c hc => ?_⟩
      · rw [HandOff.applyTo, versions_setCommit]
        split
        · exact (h.ordered key).markCommitted writer ts
        · exact h.ordered key
      · rw [HandOff.applyTo, versions_setCommit]
        split
        · rw [Cell.map_markCommitted fun _ _ => rfl]
          exact h.single key
        · exact h.single key
      · rw [HandOff.applyTo, versions_setCommit] at hc
        split at hc
        · rcases Cell.mem_markCommitted hc with hc | ⟨x, hx, -, rfl⟩
          · exact h.current key c hc
          · exact h.current key x hx
        · exact h.current key c hc

end Current

end CellStore

/-- The cells as a digest of the writes: writers are recorded, and keep their version unless their work
is gone. -/
structure Digest (d : Directory) (cells : CellStore) (writes : List Write) : Prop
    extends cells.Current writes where
  kept : ∀ w ∈ writes, ∃ v, d.find? w.writer = some v ∧
    (¬ Fallen d w.writer → w.writer ∈ (cells.versions w.key).map Cell.writer)

namespace Digest

variable {d d' : Directory} {cells : CellStore} {writes : List Write}

theorem nil (h : ∀ key, cells.versions key = []) : Digest d cells [] where
  toCurrent := .nil h
  kept w hw := by simp at hw

/-- What is gone stays gone. -/
theorem later (h : Digest d cells writes) (hlater : d.Later d') : Digest d' cells writes where
  toCurrent := h.toCurrent
  kept w hw := by
    obtain ⟨v, hv, hkept⟩ := h.kept w hw
    obtain ⟨v', hv', -⟩ := hlater _ v hv
    exact ⟨v', hv', fun hlive => hkept fun hfallen => hlive (hfallen.later hlater)⟩

theorem put (h : Digest d cells writes) {w : Write} {c : Cell} {v : View}
    (hv : d.find? w.writer = some v) (hwriter : w.writer = c.writer) (hvalue : w.value = c.value) :
    Digest d (cells.put w.key c) (w :: writes) where
  toCurrent := h.toCurrent.put hwriter hvalue
  kept x hx := by
    rcases List.mem_cons.1 hx with rfl | hx
    · exact ⟨v, hv, fun _ => CellStore.mem_writers_put.2 (.inr ⟨rfl, hwriter⟩)⟩
    · obtain ⟨u, hu, hkept⟩ := h.kept x hx
      exact ⟨u, hu, fun hlive => CellStore.mem_writers_put.2 (.inl (hkept hlive))⟩

/-- The digest after a batch of a recorded transaction. -/
theorem applied (h : Digest d cells writes) {txn : View} (htxn : d.find? txn.id = some txn)
    {l : Lineage} {past : List Write} {cells' : CellStore} {batch : List Mutation}
    {statuses : List Status} (happlied : Region.Applied d txn l cells batch statuses cells') :
    Digest d cells'
      (((succeeded batch statuses).map (Timeline.writeOf d past txn)).reverse ++ writes) := by
  induction happlied generalizing writes with
  | nil => exact h
  | skip hstatus _ ih =>
      rw [succeeded, if_neg (by simp [hstatus])]
      exact ih h
  | @put cells cells' m batch status statuses hstatus _ _ ih =>
      rw [succeeded, if_pos hstatus, List.map_cons, List.reverse_cons, List.append_assoc]
      exact ih (h.put (w := Timeline.writeOf d past txn m) htxn rfl rfl)

/-- Only what is gone is taken away. -/
theorem applyTo (h : Digest d cells writes) {handOff : HandOff} (hdue : handOff.Due d) :
    Digest d (handOff.applyTo cells).2 writes where
  toCurrent := h.toCurrent.applyTo handOff
  kept w hw := by
    obtain ⟨v, hv, hkept⟩ := h.kept w hw
    refine ⟨v, hv, fun hlive => CellStore.mem_writers_applyTo.2 ⟨hkept hlive, ?_⟩⟩
    rintro rfl
    exact hlive hdue

theorem tidied (h : Digest d cells writes) {cells' : CellStore}
    (htidied : cells.Tidied (HandOff.Due d) cells') : Digest d cells' writes := by
  induction htidied with
  | refl => exact h
  | apply hdue _ ih => exact ih (h.applyTo hdue)

end Digest

end Multiversion
