import Mathlib.Data.List.Nodup
import Multiversion.Proofs.Pipeline.Flushes

/-!
# One round of a flush

A round asks where the pending rows are, sends them in batches, one for each partition, and collects an
outcome for each of them.  Locating a row may fail; a partition may refuse a batch, or answer with the wrong
number of statuses; then every row concerned has failed.

* `Transport.locations`, `Transport.exchanges` — what the locator and the partitions answer, one after the
  other;
* `Exchange.outcomes` — what the answer to a batch says about its rows;
* `FlushRound` — one round, told from the world that it finds;
* `FlushRound.Routed` — each pending row goes to the partition that it was located in, and its outcome
  comes back to it.

Main statements: `FlushRound.round_eq` — a flush does the rounds that are told here;
`FlushRound.routed` — every round routes its rows, whatever the world does.
-/

namespace Multiversion

variable {τ : Type}

/-- A batch that was sent, with the answer of its partition. -/
structure Exchange where
  batch : Batch
  answer : Except PipelineError (List Status)

/-- What the answer to a batch says about each of its rows.  Without one status for each of them, every row
has failed. -/
def Exchange.outcomes (x : Exchange) : List (Nat × Status) :=
  match x.answer with
  | .ok statuses =>
      if statuses.length = x.batch.indexes.length then x.batch.indexes.zip statuses
      else
        let expected := x.batch.indexes.length
        x.batch.indexes.map fun i =>
          (i, .generic s!"{x.batch.partition} returned {statuses.length} statuses for {expected} rows")
  | .error e => x.batch.indexes.map fun i => (i, .generic e.message)

namespace Transport

variable (t : Transport τ) (txn : View) (rows : List Mutation)

/-- What the locator answers when it is asked for some keys, one after the other. -/
def locations : List Bytes → τ → List (Except PipelineError String)
  | [], _ => []
  | key :: rest, world => (t.locate key world).1 :: locations rest (t.locate key world).2

/-- The world once the locator has been asked for some keys. -/
def afterLocating (keys : List Bytes) (world : τ) : τ :=
  keys.foldl (fun world key => (t.locate key world).2) world

/-- What the partition of a batch does with its rows. -/
def send (b : Batch) (world : τ) : Except PipelineError (List Status) × τ :=
  t.write b.partition txn (b.indexes.map (Flush.rowAt rows)) world

/-- Batches sent one after the other, with the answers of their partitions. -/
def exchanges : List Batch → τ → List Exchange
  | [], _ => []
  | b :: rest, world =>
      ⟨b, (t.send txn rows b world).1⟩ :: exchanges rest (t.send txn rows b world).2

/-- The world once some batches have been sent. -/
def afterSending (bs : List Batch) (world : τ) : τ :=
  bs.foldl (fun world b => (t.send txn rows b world).2) world

end Transport

/-- One round of a flush: the rows that are pending, and the world that it finds. -/
structure FlushRound (τ : Type) where
  pending : List Nat
  world : τ

namespace FlushRound

variable (t : Transport τ) (txn : View) (rows : List Mutation) (r : FlushRound τ)

/-- The keys of the pending rows. -/
def keys : List Bytes := r.pending.map fun i => (Flush.rowAt rows i).key

/-- The pending rows with what the locator answers for each of them. -/
def located : List (Nat × Except PipelineError String) :=
  r.pending.zip (t.locations (r.keys rows) r.world)

/-- The batches that are sent. -/
def batches : List Batch := Flush.batches (r.located t rows)

/-- The batches with the answers of their partitions. -/
def exchanges : List Exchange :=
  t.exchanges txn rows (r.batches t rows) (t.afterLocating (r.keys rows) r.world)

/-- The outcomes of all rows of the round. -/
def outcomes : List (Nat × Status) :=
  Flush.unlocated (r.located t rows) ++ (r.exchanges t txn rows).flatMap Exchange.outcomes

/-- The outcomes of one row: none, if it was not pending. -/
def outcomesOf (i : Nat) : List Status := ((r.outcomes t txn rows).filter (·.1 = i)).map (·.2)

/-- The world after the round. -/
def after : τ :=
  t.afterSending txn rows (r.batches t rows) (t.afterLocating (r.keys rows) r.world)

/-- A flush with the round recorded. -/
def recorded (f : FlushState τ) : FlushState τ where
  statuses := (r.outcomes t txn rows).foldl (fun statuses o => statuses.set o.1 o.2) f.statuses
  stats := (r.batches t rows).foldl (fun stats b => stats.countBatch b.indexes.length) f.stats
  world := r.after t txn rows

/-- The round that follows if there are rows to try again. -/
def next : FlushRound τ where
  pending := Flush.retries (r.outcomes t txn rows)
  world := r.after t txn rows

/-- How a round treats its rows: where each of them is located, the batches and what comes back to the rows
are all told by the locator and the partitions. -/
structure Routed : Prop where
  -- The locator is asked for every pending row, in order of submission.
  located : (r.located t rows).map (·.1) = r.pending ∧
    (r.located t rows).map (·.2) = t.locations (r.keys rows) r.world
  -- A row that was located is in one batch only, that of the partition where it is.
  sent : ∀ i name, (i, .ok name) ∈ r.located t rows →
    ∃ b, (r.batches t rows).filter (fun b => i ∈ b.indexes) = [b] ∧ b.partition = name
  -- A row that could not be located is in no batch, and has failed.
  missed : ∀ i e, (i, .error e) ∈ r.located t rows →
    (∀ b ∈ r.batches t rows, i ∉ b.indexes) ∧ (i, .generic e.message) ∈ r.outcomes t txn rows
  -- A batch lists pending rows, in order of submission.
  inOrder : ∀ b ∈ r.batches t rows, b.indexes ⊆ r.pending ∧ b.indexes.Pairwise (· < ·)
  -- The batches are sent in the order of their partitions' names, and none of them is empty.
  grouped : ((r.batches t rows).map Batch.partition).Pairwise (· < ·) ∧
    ∀ b ∈ r.batches t rows, b.indexes ≠ []
  -- Every batch is answered, and every status goes to its row.
  answered : (r.exchanges t txn rows).map Exchange.batch = r.batches t rows ∧
    ∀ x ∈ r.exchanges t txn rows, x.outcomes ⊆ r.outcomes t txn rows
  -- A pending row has one outcome, and another row has none.
  once : ∀ i, (r.outcomesOf t txn rows i).length = if i ∈ r.pending then 1 else 0

end FlushRound

theorem Transport.length_locations (t : Transport τ) (keys : List Bytes) (world : τ) :
    (t.locations keys world).length = keys.length := by
  induction keys generalizing world with
  | nil => rfl
  | cons key rest ih => exact congrArg (· + 1) (ih _)

namespace Flush

variable {t : Transport τ} {txn : View} {rows : List Mutation}
variable {located : List (Nat × Except PipelineError String)}

section Routing

theorem mem_partitions {name : String} :
    name ∈ partitions located ↔ ∃ i, (i, .ok name) ∈ located := by
  simp only [partitions, List.mem_mergeSort, List.mem_eraseDups, List.mem_filterMap, Prod.exists]
  constructor
  · rintro ⟨i, answer, hlocated, hname⟩
    cases answer with
    | error e => cases hname
    | ok name' =>
        cases hname
        exact ⟨i, hlocated⟩
  · rintro ⟨i, hlocated⟩
    exact ⟨i, _, hlocated, rfl⟩

/-- Partitions are named in order, and none of them twice. -/
theorem pairwise_partitions (located : List (Nat × Except PipelineError String)) :
    (partitions located).Pairwise (· < ·) := by
  have hsorted : (partitions located).Pairwise fun a b => decide (a ≤ b) = true :=
    List.pairwise_mergeSort (fun a b c => by simpa using String.le_trans)
      (fun a b => by simpa using String.le_total a b) _
  exact hsorted.imp₂ (fun _ _ hle hne => Std.lt_of_le_of_ne (of_decide_eq_true hle) hne)
    (nodup_partitions located)

theorem mem_batchFor {name : String} {i : Nat} :
    i ∈ (batchFor located name).indexes ↔ (i, .ok name) ∈ located := by
  simp only [batchFor, List.mem_filterMap, Prod.exists]
  constructor
  · rintro ⟨j, answer, hlocated, hsome⟩
    cases answer with
    | error e => simp [Except.toOption] at hsome
    | ok name' =>
        split at hsome
        · rename_i hname
          cases hname
          cases hsome
          exact hlocated
        · contradiction
  · intro hlocated
    exact ⟨i, _, hlocated, if_pos rfl⟩

theorem mem_batches {b : Batch} :
    b ∈ batches located ↔ ∃ name ∈ partitions located, batchFor located name = b :=
  List.mem_map

theorem mem_unlocated {i : Nat} {status : Status} :
    (i, status) ∈ unlocated located ↔
      ∃ e, (i, .error e) ∈ located ∧ status = .generic e.message := by
  simp only [unlocated, List.mem_filterMap, Prod.exists]
  constructor
  · rintro ⟨j, answer, hlocated, hsome⟩
    cases answer with
    | error e =>
        cases hsome
        exact ⟨e, hlocated, rfl⟩
    | ok name => cases hsome
  · rintro ⟨e, hlocated, rfl⟩
    exact ⟨i, _, hlocated, rfl⟩

/-- **Locating rows** is asking for their keys, one after the other. -/
theorem locateAll_eq (t : Transport τ) (rows : List Mutation) (pending : List Nat) (world : τ) :
    locateAll t rows pending world =
      (pending.zip (t.locations (pending.map fun i => (rowAt rows i).key) world),
        t.afterLocating (pending.map fun i => (rowAt rows i).key) world) := by
  induction pending generalizing world with
  | nil => rfl
  | cons i rest ih =>
      have hkey : (rows[i]?.map Mutation.key).getD [] = (rowAt rows i).key := by
        rw [rowAt]
        cases rows[i]? <;> rfl
      rw [locateAll, hkey]
      simp only [ih]
      rfl

/-- What is picked from a list and then looked at is part of the list looked at. -/
theorem sublist_filterMap {α β : Type} {pick : α → Option β} {look : α → β}
    (h : ∀ a b, pick a = some b → look a = b) (items : List α) :
    (items.filterMap pick).Sublist (items.map look) := by
  induction items with
  | nil => exact .slnil
  | cons a rest ih =>
      rw [List.filterMap_cons, List.map_cons]
      cases hpick : pick a with
      | none => exact ih.cons _
      | some b =>
          rw [h a b hpick]
          exact ih.cons_cons _

/-- The rows of one batch are among those that were located, in their order. -/
theorem sublist_batchFor (name : String) :
    (batchFor located name).indexes.Sublist (located.map (·.1)) := by
  refine sublist_filterMap (fun row i hpick => ?_) located
  split at hpick
  · exact Option.some.inj hpick
  · contradiction

theorem sublist_unlocated : ((unlocated located).map (·.1)).Sublist (located.map (·.1)) := by
  rw [unlocated, List.map_filterMap]
  refine sublist_filterMap (fun row i hpick => ?_) located
  obtain ⟨o, hsome, rfl⟩ := Option.map_eq_some_iff.1 hpick
  split at hsome
  · cases hsome
    rfl
  · contradiction

/-- One status for all rows of a batch. -/
theorem zip_replicate (indexes : List Nat) (status : Status) :
    indexes.zip (List.replicate indexes.length status) = indexes.map fun i => (i, status) := by
  rw [← List.map_const', ← List.map_prod_left_eq_zip]

/-- **The statuses that an answer stands for** are what it says about the rows of the batch. -/
theorem zip_answerStatuses_eq (x : Exchange) :
    x.batch.indexes.zip (answerStatuses x.batch.partition x.batch.indexes.length x.answer) =
      x.outcomes := by
  unfold Exchange.outcomes
  cases x.answer with
  | error e => exact zip_replicate _ _
  | ok statuses =>
      dsimp only [answerStatuses]
      split
      · rfl
      · exact zip_replicate _ _

theorem map_fst_outcomes (x : Exchange) : x.outcomes.map (·.1) = x.batch.indexes := by
  unfold Exchange.outcomes
  split
  · split
    · rename_i hlength
      exact List.map_fst_zip (Nat.le_of_eq hlength.symm)
    · simp [Function.comp_def]
  · simp [Function.comp_def]

theorem map_batch_exchanges (bs : List Batch) (world : τ) :
    (t.exchanges txn rows bs world).map Exchange.batch = bs := by
  induction bs generalizing world with
  | nil => rfl
  | cons b rest ih => exact congrArg (b :: ·) (ih _)

/-- **Sending batches** collects what the answers say about their rows, and counts each batch with its
rows. -/
theorem sendAll_eq {bs : List Batch} (hvalid : ∀ b ∈ bs, ∀ i ∈ b.indexes, i < rows.length)
    (stats : WriterStats) (world : τ) :
    sendAll t txn rows bs stats world =
      ((t.exchanges txn rows bs world).flatMap Exchange.outcomes,
        bs.foldl (fun stats b => stats.countBatch b.indexes.length) stats,
        t.afterSending txn rows bs world) := by
  induction bs generalizing stats world with
  | nil => rfl
  | cons b rest ih =>
      obtain ⟨hb, hrest⟩ := List.forall_mem_cons.1 hvalid
      have hlength : (b.indexes.map (rowAt rows)).length = b.indexes.length := List.length_map _
      have houtcomes := zip_answerStatuses_eq ⟨b, (t.send txn rows b world).1⟩
      simp only [sendAll, filterMap_getElem? hb, hlength, ih hrest]
      simp only [Transport.exchanges, List.flatMap_cons, ← houtcomes]
      rfl

end Routing

/-- Outcomes recorded one after the other: the last one of a row stands. -/
theorem getElem?_foldl_set (outcomes : List (Nat × Status)) (statuses : List Status) (i : Nat) :
    (outcomes.foldl (fun statuses o => statuses.set o.1 o.2) statuses)[i]? =
      statuses[i]?.map fun old => ((outcomes.filter (·.1 = i)).map (·.2)).getLast?.getD old := by
  induction outcomes generalizing statuses with
  | nil => simp
  | cons o rest ih =>
      rw [List.foldl_cons, ih, List.getElem?_set]
      by_cases hi : o.1 = i
      · rw [List.filter_cons_of_pos (by simp [hi]), List.map_cons, List.getLast?_cons, if_pos hi]
        by_cases hlength : i < statuses.length
        · simp [hi, hlength]
        · simp [hi, hlength]
      · rw [List.filter_cons_of_neg (by simp [hi]), if_neg hi]

/-- The rows to try again are those whose outcome allows it. -/
theorem mem_retries {outcomes : List (Nat × Status)} {i : Nat} :
    i ∈ retries outcomes ↔ ∃ s, (i, s) ∈ outcomes ∧ s.isRetryable = true := by
  simp [retries]

theorem pairwise_retries {outcomes : List (Nat × Status)} (h : (outcomes.map (·.1)).Nodup) :
    (retries outcomes).Pairwise (· < ·) := by
  have hsorted : (retries outcomes).Pairwise fun a b => decide (a ≤ b) = true :=
    List.pairwise_mergeSort (fun a b c => by simpa using Nat.le_trans)
      (fun a b => by simpa using Nat.le_total a b) _
  have hnodup : (retries outcomes).Nodup :=
    (List.mergeSort_perm _ _).nodup_iff.2 (h.sublist (List.filter_sublist.map _))
  exact hsorted.imp₂ (fun _ _ hle hne => Nat.lt_of_le_of_ne (of_decide_eq_true hle) hne) hnodup

end Flush

namespace FlushRound

open Flush

variable {t : Transport τ} {txn : View} {rows : List Mutation} {r : FlushRound τ}

/-- Rows of the flush are pending, in order of submission. -/
structure Valid (rows : List Mutation) (r : FlushRound τ) : Prop where
  ordered : r.pending.Pairwise (· < ·)
  bounded : ∀ i ∈ r.pending, i < rows.length

variable (t rows r) in
theorem map_fst_located : (r.located t rows).map (·.1) = r.pending :=
  List.map_fst_zip (by simp [Transport.length_locations, keys])

theorem mem_pending_of_batches {b : Batch} (hb : b ∈ r.batches t rows) :
    b.indexes.Sublist r.pending := by
  obtain ⟨name, -, rfl⟩ := mem_batches.1 hb
  rw [← map_fst_located t rows r]
  exact sublist_batchFor name

variable (t txn)

variable (rows r) in
theorem map_fst_outcomes_eq :
    (r.outcomes t txn rows).map (·.1) =
      (unlocated (r.located t rows)).map (·.1) ++ (r.batches t rows).flatMap Batch.indexes := by
  have hbatches : (r.exchanges t txn rows).map Exchange.batch = r.batches t rows :=
    map_batch_exchanges _ _
  rw [outcomes, List.map_append, List.map_flatMap, ← hbatches, List.flatMap_map]
  simp only [map_fst_outcomes]

theorem mem_map_fst_outcomes {i : Nat} :
    i ∈ (r.outcomes t txn rows).map (·.1) ↔ i ∈ r.pending := by
  rw [map_fst_outcomes_eq t txn rows r, List.mem_append]
  constructor
  · rintro (hi | hi)
    · rw [← map_fst_located t rows r]
      exact sublist_unlocated.subset hi
    · obtain ⟨b, hb, hib⟩ := List.mem_flatMap.1 hi
      exact (mem_pending_of_batches hb).subset hib
  · intro hi
    rw [← map_fst_located t rows r] at hi
    obtain ⟨⟨_, answer⟩, hlocated, rfl⟩ := List.mem_map.1 hi
    cases answer with
    | error e =>
        exact .inl (List.mem_map.2 ⟨_, mem_unlocated.2 ⟨e, hlocated, rfl⟩, rfl⟩)
    | ok name =>
        refine .inr (List.mem_flatMap.2 ⟨batchFor (r.located t rows) name, ?_, mem_batchFor.2 hlocated⟩)
        exact mem_batches.2 ⟨name, mem_partitions.2 ⟨_, hlocated⟩, rfl⟩

theorem outcomesOf_of_not_mem {i : Nat} (hi : i ∉ r.pending) : r.outcomesOf t txn rows i = [] := by
  rw [outcomesOf, List.map_eq_nil_iff, List.filter_eq_nil_iff]
  intro o ho hsame
  refine hi ((mem_map_fst_outcomes t txn).1 (List.mem_map.2 ⟨o, ho, ?_⟩))
  simpa using hsame

variable (rows) in
theorem exists_outcome {i : Nat} (hi : i ∈ r.pending) :
    ∃ status, (i, status) ∈ r.outcomes t txn rows := by
  obtain ⟨⟨_, status⟩, hmem, rfl⟩ := List.mem_map.1 ((mem_map_fst_outcomes t txn).2 hi)
  exact ⟨status, hmem⟩

/-- The rows of the next round are pending in this one. -/
theorem pending_next : (r.next t txn rows).pending ⊆ r.pending := by
  intro i hi
  obtain ⟨status, hmem, -⟩ := mem_retries.1 hi
  exact (mem_map_fst_outcomes t txn).1 (List.mem_map_of_mem hmem)

variable (h : r.Valid rows)
include h

/-- **A flush does this round**, whatever it has recorded before. -/
theorem round_eq {f : FlushState τ} (hworld : f.world = r.world) :
    Flush.round t txn rows r.pending f = (r.outcomes t txn rows, r.recorded t txn rows f) := by
  have hvalid : ∀ b ∈ r.batches t rows, ∀ i ∈ b.indexes, i < rows.length :=
    fun b hb i hi => h.bounded i ((mem_pending_of_batches hb).subset hi)
  have hlocated : locateAll t rows r.pending f.world =
      (r.located t rows, t.afterLocating (r.keys rows) r.world) := by
    rw [locateAll_eq, hworld]
    rfl
  simp only [Flush.round, hlocated]
  rw [show Flush.batches (r.located t rows) = r.batches t rows from rfl, sendAll_eq hvalid]
  rfl

/-- A row is located once. -/
theorem located_unique {i : Nat} {answer answer' : Except PipelineError String}
    (hi : (i, answer) ∈ r.located t rows) (hi' : (i, answer') ∈ r.located t rows) :
    answer = answer' := by
  have hnodup : ((r.located t rows).map (·.1)).Nodup := by
    rw [map_fst_located]
    exact h.ordered.imp Nat.ne_of_lt
  exact congrArg Prod.snd (List.inj_on_of_nodup_map hnodup hi hi' rfl)

theorem nodup_map_fst_outcomes : ((r.outcomes t txn rows).map (·.1)).Nodup := by
  have hpending : r.pending.Nodup := h.ordered.imp Nat.ne_of_lt
  rw [map_fst_outcomes_eq t txn rows r, List.nodup_append]
  refine ⟨?_, List.nodup_flatMap.2 ⟨fun b hb => ?_, ?_⟩, ?_⟩
  · rw [← map_fst_located t rows r] at hpending
    exact hpending.sublist sublist_unlocated
  · exact hpending.sublist (mem_pending_of_batches hb)
  · -- Two batches are for two partitions, and a row is in one of them only.
    refine List.pairwise_map.2 ((nodup_partitions _).imp fun {name name'} hne i hi hi' => hne ?_)
    exact Except.ok.inj (located_unique t h (mem_batchFor.1 hi) (mem_batchFor.1 hi'))
  · rintro i hi j hj rfl
    obtain ⟨⟨_, status⟩, hunlocated, rfl⟩ := List.mem_map.1 hi
    obtain ⟨e, hmissed, -⟩ := mem_unlocated.1 hunlocated
    obtain ⟨b, hb, hib⟩ := List.mem_flatMap.1 hj
    obtain ⟨name, -, rfl⟩ := mem_batches.1 hb
    cases located_unique t h hmissed (mem_batchFor.1 hib)

variable {t txn} in
/-- The outcome of a row is the only one that it has in the round. -/
theorem outcomesOf_of_mem {i : Nat} {status : Status} (hi : (i, status) ∈ r.outcomes t txn rows) :
    r.outcomesOf t txn rows i = [status] := by
  have hnodup := nodup_map_fst_outcomes t txn h
  rw [outcomesOf]
  generalize r.outcomes t txn rows = outcomes at hi hnodup
  obtain ⟨before, after, rfl⟩ := List.append_of_mem hi
  rw [List.map_append, List.map_cons, List.nodup_append, List.nodup_cons] at hnodup
  obtain ⟨-, ⟨hafter, -⟩, hbefore⟩ := hnodup
  have hnone : ∀ l : List (Nat × Status), i ∉ l.map (·.1) → l.filter (·.1 = i) = [] := by
    intro l hl
    refine List.filter_eq_nil_iff.2 fun o ho hsame => hl ?_
    exact List.mem_map.2 ⟨o, ho, by simpa using hsame⟩
  rw [List.filter_append, hnone before fun hi => hbefore i hi i List.mem_cons_self rfl,
    List.filter_cons_of_pos (by simp), hnone after hafter]
  rfl

/-- **Every round routes its rows.** -/
theorem routed : r.Routed t txn rows where
  located := ⟨map_fst_located t rows r,
    List.map_snd_zip (by simp [Transport.length_locations, keys])⟩
  sent i name hi := by
    refine ⟨batchFor (r.located t rows) name, ?_, rfl⟩
    -- Only the batch of this partition lists the row.
    have hsame : ∀ name', decide (i ∈ (batchFor (r.located t rows) name').indexes) =
        decide (name' = name) := by
      intro name'
      refine decide_eq_decide.2 (mem_batchFor.trans ⟨fun hi' => ?_, fun hname => hname ▸ hi⟩)
      exact Except.ok.inj (located_unique t h hi' hi)
    have hname : name ∈ partitions (r.located t rows) := mem_partitions.2 ⟨i, hi⟩
    rw [batches, Flush.batches, List.filter_map]
    refine (congrArg (List.map _) ?_).trans List.map_singleton
    simp only [Function.comp_def, hsame]
    rw [List.filter_eq, List.count_eq_one_of_mem (nodup_partitions _) hname]
    rfl
  missed i e hi := by
    constructor
    · intro b hb hib
      obtain ⟨name, -, rfl⟩ := mem_batches.1 hb
      cases located_unique t h hi (mem_batchFor.1 hib)
    · exact List.mem_append_left _ (mem_unlocated.2 ⟨e, hi, rfl⟩)
  inOrder b hb := ⟨(mem_pending_of_batches hb).subset, h.ordered.sublist (mem_pending_of_batches hb)⟩
  grouped := by
    constructor
    · have hnames : (r.batches t rows).map Batch.partition = partitions (r.located t rows) := by
        rw [batches, Flush.batches, List.map_map]
        exact List.map_id _
      rw [hnames]
      exact pairwise_partitions _
    · rintro b hb hnone
      obtain ⟨name, hname, rfl⟩ := mem_batches.1 hb
      obtain ⟨i, hi⟩ := mem_partitions.1 hname
      rw [← mem_batchFor, hnone] at hi
      contradiction
  answered := ⟨map_batch_exchanges _ _,
    fun x hx _ ho => List.mem_append_right _ (List.mem_flatMap.2 ⟨x, hx, ho⟩)⟩
  once i := by
    split
    · rename_i hi
      obtain ⟨status, hmem⟩ := exists_outcome t txn rows hi
      rw [outcomesOf_of_mem h hmem]
      rfl
    · rename_i hi
      rw [outcomesOf_of_not_mem t txn hi]
      rfl

theorem valid_next : (r.next t txn rows).Valid rows where
  ordered := pairwise_retries (nodup_map_fst_outcomes t txn h)
  bounded i hi := h.bounded i (pending_next t txn hi)

end FlushRound

end Multiversion
