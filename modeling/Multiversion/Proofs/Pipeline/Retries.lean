import Multiversion.Proofs.Pipeline.Rounds

/-!
# Attempts at the rows of a flush

A flush attempts all its rows, and then again those whose outcome allows it, for a bounded number of
rounds.  Between two rounds rows may move to other partitions, and partitions may answer as they like, or
not at all.

* `Flush.history` — the rounds of a flush, each from the world that the one before it left;
* `Flush.attempts` — the outcomes of one row, attempt by attempt, and `Flush.Attempted` — how many there
  are;
* `Flush.Performs` — a flush that has done some rounds and recorded them; `Flush.performs_rounds` — so has
  every flush.

Main statement: `Flush.run_retries` — which rows a flush attempts how often, with what it answers and
counts.
-/

namespace Multiversion

variable {τ : Type}

namespace Flush

variable (t : Transport τ) (txn : View) (rows : List Mutation)

/-- The first round: all rows are pending. -/
def firstRound (world : τ) : FlushRound τ where
  pending := List.range rows.length
  world

/-- The rounds of a flush from a given one on, with a budget for further ones. -/
def history : (budget : Nat) → FlushRound τ → List (FlushRound τ)
  | 0, r => [r]
  | budget + 1, r =>
      if retries (r.outcomes t txn rows) = [] then [r]
      else r :: history budget (r.next t txn rows)

/-- The outcomes of one row in some rounds, attempt by attempt. -/
def attempts (rounds : List (FlushRound τ)) (i : Nat) : List Status :=
  rounds.flatMap fun r => r.outcomesOf t txn rows i

/-- A row is attempted at least once, again only after an outcome that allows it, and for the last time
when its outcome does not, or when the budget is used up. -/
structure Attempted (maxRetries : Nat) (tries : List Status) : Prop where
  nonempty : tries ≠ []
  within : tries.length ≤ maxRetries + 1
  retried : ∀ s ∈ tries.dropLast, s.isRetryable = true
  exhausted : ∀ s ∈ tries.getLast?, s.isRetryable = true → tries.length = maxRetries + 1

/-- What a flush has recorded by the end of some rounds, over what it had recorded before them. -/
structure Performs (history : List (FlushRound τ)) (before flushed : FlushState τ) : Prop where
  -- The status of a row is the last of its outcomes.
  statuses : ∀ i, flushed.statuses[i]? =
    before.statuses[i]?.map fun old => (attempts t txn rows history i).getLast?.getD old
  world : ∃ last, history.getLast? = some last ∧ flushed.world = last.after t txn rows
  -- The rows of every batch are counted; failed rows are not counted yet.
  rowsWritten : flushed.stats.rowsWritten = before.stats.rowsWritten +
    ((history.flatMap fun r => r.batches t rows).flatMap Batch.indexes).length
  failedRows : flushed.stats.failedRows = before.stats.failedRows

/-- The last of the answers `0, 1, …` to a row: attempts go on while they may, within a budget. -/
def lastAnswer : (budget : Nat) → (Nat → Status) → Status
  | 0, answer => answer 0
  | budget + 1, answer =>
      if (answer 0).isRetryable then lastAnswer budget fun n => answer (n + 1) else answer 0

variable {t txn rows}

theorem history_of_last {budget : Nat} {r : FlushRound τ}
    (h : budget = 0 ∨ retries (r.outcomes t txn rows) = []) : history t txn rows budget r = [r] := by
  cases budget with
  | zero => rfl
  | succ budget =>
      rw [history, if_pos]
      exact h.resolve_left (Nat.succ_ne_zero budget)

theorem history_of_retries {budget : Nat} {r : FlushRound τ}
    (h : retries (r.outcomes t txn rows) ≠ []) :
    history t txn rows (budget + 1) r = r :: history t txn rows budget (r.next t txn rows) := by
  rw [history, if_neg h]

theorem history_zero (budget : Nat) (r : FlushRound τ) :
    (history t txn rows budget r)[0]? = some r := by
  cases budget with
  | zero => rfl
  | succ budget =>
      rw [history]
      split <;> rfl

theorem length_history_le (budget : Nat) (r : FlushRound τ) :
    (history t txn rows budget r).length ≤ budget + 1 := by
  induction budget generalizing r with
  | zero => exact Nat.le_refl 1
  | succ budget ih =>
      rw [history]
      split
      · exact Nat.le_add_left 1 _
      · exact Nat.succ_le_succ (ih _)

/-- **When a round is followed by another one**: there is something to try again, and fewer rounds than
the budget permits have followed the first one. -/
theorem history_succ {budget n : Nat} {r r' : FlushRound τ}
    (h : (history t txn rows budget r)[n]? = some r') :
    (history t txn rows budget r)[n + 1]? =
      if n < budget ∧ retries (r'.outcomes t txn rows) ≠ [] then some (r'.next t txn rows)
      else none := by
  induction budget generalizing r n with
  | zero => simp [history]
  | succ budget ih =>
      by_cases hnone : retries (r.outcomes t txn rows) = []
      · rw [history_of_last (.inr hnone)] at h ⊢
        obtain ⟨rfl, rfl⟩ : n = 0 ∧ r = r' := by
          cases n with
          | zero => exact ⟨rfl, Option.some.inj h⟩
          | succ n => simp at h
        simp [hnone]
      · rw [history_of_retries hnone] at h ⊢
        cases n with
        | zero =>
            cases h
            rw [List.getElem?_cons_succ, history_zero, if_pos ⟨Nat.succ_pos _, hnone⟩]
        | succ n =>
            rw [List.getElem?_cons_succ] at h ⊢
            rw [ih h]
            simp only [Nat.succ_lt_succ_iff]

/-- What holds of a round and is passed on to the next one holds of all rounds. -/
theorem forall_mem_history {P : FlushRound τ → Prop} (hnext : ∀ r, P r → P (r.next t txn rows))
    {budget : Nat} {r : FlushRound τ} (hr : P r) : ∀ r' ∈ history t txn rows budget r, P r' := by
  induction budget generalizing r with
  | zero => simpa [history] using hr
  | succ budget ih =>
      rw [history]
      split
      · simpa using hr
      · exact List.forall_mem_cons.2 ⟨hr, ih (hnext r hr)⟩

/-- Batches are counted with their rows. -/
theorem foldl_countBatch (bs : List Batch) (stats : WriterStats) :
    (bs.foldl (fun stats b => stats.countBatch b.indexes.length) stats).rowsWritten =
        stats.rowsWritten + (bs.flatMap Batch.indexes).length ∧
      (bs.foldl (fun stats b => stats.countBatch b.indexes.length) stats).failedRows =
        stats.failedRows := by
  induction bs generalizing stats with
  | nil => exact ⟨rfl, rfl⟩
  | cons b rest ih =>
      obtain ⟨hwritten, hfailed⟩ := ih (stats.countBatch b.indexes.length)
      refine ⟨?_, hfailed⟩
      rw [List.foldl_cons, hwritten, List.flatMap_cons, List.length_append, ← Nat.add_assoc]
      rfl

/-- One round that is recorded. -/
theorem performs_recorded (r : FlushRound τ) (f : FlushState τ) :
    Performs t txn rows [r] f (r.recorded t txn rows f) where
  statuses i := by
    rw [attempts, List.flatMap_singleton]
    exact getElem?_foldl_set _ _ _
  world := ⟨r, rfl, rfl⟩
  rowsWritten := by
    rw [List.flatMap_singleton]
    exact (foldl_countBatch _ _).1
  failedRows := (foldl_countBatch _ _).2

/-- A round that is recorded before the others. -/
theorem Performs.cons {history : List (FlushRound τ)} {r : FlushRound τ} {f flushed : FlushState τ}
    {again : Nat}
    (h : Performs t txn rows history
      { r.recorded t txn rows f with stats := (r.recorded t txn rows f).stats.countRetries again }
      flushed) :
    Performs t txn rows (r :: history) f flushed where
  statuses i := by
    rw [h.statuses, (performs_recorded r f).statuses, Option.map_map]
    refine Option.map_congr fun old _ => ?_
    rw [attempts, attempts, attempts, List.flatMap_singleton, List.flatMap_cons, List.getLast?_append]
    cases (history.flatMap fun r => r.outcomesOf t txn rows i).getLast? <;> rfl
  world := by
    obtain ⟨last, hlast, hworld⟩ := h.world
    exact ⟨last, by rw [List.getLast?_cons, hlast]; rfl, hworld⟩
  rowsWritten := by
    refine h.rowsWritten.trans ?_
    rw [List.flatMap_cons, List.flatMap_append, List.length_append, ← Nat.add_assoc]
    exact congrArg (· + _) (foldl_countBatch _ _).1
  failedRows := h.failedRows.trans (foldl_countBatch _ _).2

namespace Performs

variable {history : List (FlushRound τ)} {before flushed : FlushState τ}

theorem length_statuses (h : Performs t txn rows history before flushed) :
    flushed.statuses.length = before.statuses.length := by
  refine Nat.le_antisymm (List.getElem?_eq_none_iff.1 ?_) (List.getElem?_eq_none_iff.1 ?_)
  · simp [h.statuses]
  · have hnone := h.statuses flushed.statuses.length
    rw [List.getElem?_eq_none (Nat.le_refl _)] at hnone
    exact Option.map_eq_none_iff.1 hnone.symm

/-- The status of a row that was attempted. -/
theorem getElem?_of_attempted (h : Performs t txn rows history before flushed) {i : Nat}
    (hi : i < before.statuses.length) (hattempted : attempts t txn rows history i ≠ []) :
    flushed.statuses[i]? = (attempts t txn rows history i).getLast? := by
  rw [h.statuses, List.getElem?_eq_getElem hi, List.getLast?_eq_some_getLast hattempted]
  rfl

end Performs

variable (t txn) in
/-- **A flush does the rounds of its history**, and records each of them. -/
theorem performs_rounds (budget : Nat) {r : FlushRound τ} (h : r.Valid rows) {f : FlushState τ}
    (hworld : f.world = r.world) :
    Performs t txn rows (history t txn rows budget r) f (rounds t txn rows budget r.pending f) := by
  induction budget generalizing r f with
  | zero =>
      rw [rounds_of_last (.inl rfl), FlushRound.round_eq t txn h hworld]
      exact performs_recorded r f
  | succ budget ih =>
      have hround := FlushRound.round_eq t txn h hworld
      by_cases hnone : retries (r.outcomes t txn rows) = []
      · rw [rounds_of_last (.inr (hround ▸ hnone)), history_of_last (.inr hnone), hround]
        exact performs_recorded r f
      · rw [rounds_of_retries (hround ▸ hnone), history_of_retries hnone, hround]
        exact .cons (ih (FlushRound.valid_next t txn h) rfl)

section Attempts

variable {r : FlushRound τ} {i : Nat} {status : Status}

/-- A row that is not pending is not attempted. -/
theorem attempts_of_not_mem (budget : Nat) (h : r.Valid rows) (hi : i ∉ r.pending) :
    attempts t txn rows (history t txn rows budget r) i = [] := by
  refine List.flatMap_eq_nil_iff.2 fun r' hr' => ?_
  have hall : ∀ r' ∈ history t txn rows budget r, r'.Valid rows ∧ i ∉ r'.pending := by
    refine forall_mem_history (fun r hr => ⟨FlushRound.valid_next t txn hr.1, fun hi => ?_⟩) ⟨h, hi⟩
    exact hr.2 (FlushRound.pending_next t txn hi)
  exact FlushRound.outcomesOf_of_not_mem t txn (hall r' hr').2

/-- **The attempts at a pending row**: this one, and those of the rounds that follow if its outcome
allows it. -/
theorem attempts_of_mem (budget : Nat) (h : r.Valid rows)
    (hmem : (i, status) ∈ r.outcomes t txn rows) :
    attempts t txn rows (history t txn rows (budget + 1) r) i =
      status :: if status.isRetryable then
        attempts t txn rows (history t txn rows budget (r.next t txn rows)) i else [] := by
  have hagain : i ∈ (r.next t txn rows).pending ↔ status.isRetryable = true := by
    refine mem_retries.trans ⟨fun ⟨s, hs, hretryable⟩ => ?_, fun hretryable => ⟨status, hmem, hretryable⟩⟩
    have hsame := (FlushRound.outcomesOf_of_mem h hs).symm.trans (FlushRound.outcomesOf_of_mem h hmem)
    exact (List.singleton_inj.1 hsame) ▸ hretryable
  by_cases hnone : retries (r.outcomes t txn rows) = []
  · have hstop : ¬status.isRetryable = true := fun hretryable => by
      have hi : i ∈ retries (r.outcomes t txn rows) := hagain.2 hretryable
      simp [hnone] at hi
    rw [history_of_last (.inr hnone), attempts, List.flatMap_singleton,
      FlushRound.outcomesOf_of_mem h hmem, if_neg hstop]
  · rw [history_of_retries hnone, attempts, List.flatMap_cons, FlushRound.outcomesOf_of_mem h hmem]
    refine congrArg (status :: ·) ?_
    split
    · rfl
    · rename_i hstop
      exact attempts_of_not_mem budget (FlushRound.valid_next t txn h) fun hi => hstop (hagain.1 hi)

theorem attempts_zero (h : r.Valid rows) (hmem : (i, status) ∈ r.outcomes t txn rows) :
    attempts t txn rows (history t txn rows 0 r) i = [status] := by
  rw [history, attempts, List.flatMap_singleton, FlushRound.outcomesOf_of_mem h hmem]

theorem Attempted.once {budget : Nat} (h : budget = 0 ∨ status.isRetryable = false) :
    Attempted budget [status] where
  nonempty := List.cons_ne_nil _ _
  within := Nat.le_add_left 1 budget
  retried := by simp
  exhausted s hs hretryable := by
    obtain rfl : status = s := by simpa using hs
    rcases h with rfl | hstop
    · rfl
    · simp [hstop] at hretryable

theorem Attempted.again {budget : Nat} {tries : List Status} (hretryable : status.isRetryable = true)
    (h : Attempted budget tries) : Attempted (budget + 1) (status :: tries) where
  nonempty := List.cons_ne_nil _ _
  within := Nat.succ_le_succ h.within
  retried := by
    rw [List.dropLast_cons_of_ne_nil h.nonempty]
    exact List.forall_mem_cons.2 ⟨hretryable, h.retried⟩
  exhausted s hs hlast := by
    rw [List.getLast?_cons_of_ne_nil h.nonempty] at hs
    exact congrArg (· + 1) (h.exhausted s hs hlast)

/-- **Every pending row** is attempted as often as its outcomes and the budget say. -/
theorem attempted_history (budget : Nat) (h : r.Valid rows) (hi : i ∈ r.pending) :
    Attempted budget (attempts t txn rows (history t txn rows budget r) i) := by
  obtain ⟨status, hmem⟩ := FlushRound.exists_outcome t txn rows hi
  induction budget generalizing r status with
  | zero =>
      rw [attempts_zero h hmem]
      exact .once (.inl rfl)
  | succ budget ih =>
      rw [attempts_of_mem budget h hmem]
      split
      · rename_i hretryable
        have hi' : i ∈ (r.next t txn rows).pending := mem_retries.2 ⟨status, hmem, hretryable⟩
        have hnext := FlushRound.valid_next t txn h
        obtain ⟨status', hmem'⟩ := FlushRound.exists_outcome t txn rows hi'
        exact .again hretryable (ih hnext hi' status' hmem')
      · rename_i hstop
        exact .once (.inr (by simpa using hstop))

/-- **A row whose answers depend on the attempt only** ends with the last of these answers. -/
theorem getLast?_attempts {budget : Nat} (h : r.Valid rows) (hi : i ∈ r.pending) {answer : Nat → Status}
    (hanswer : ∀ n r', (history t txn rows budget r)[n]? = some r' →
      ∀ s, (i, s) ∈ r'.outcomes t txn rows → s = answer n) :
    (attempts t txn rows (history t txn rows budget r) i).getLast? = some (lastAnswer budget answer) := by
  obtain ⟨status, hmem⟩ := FlushRound.exists_outcome t txn rows hi
  obtain rfl : status = answer 0 := hanswer 0 r (history_zero budget r) status hmem
  induction budget generalizing r answer with
  | zero =>
      rw [attempts_zero h hmem]
      rfl
  | succ budget ih =>
      rw [attempts_of_mem budget h hmem, lastAnswer]
      split
      · rename_i hretryable
        have hi' : i ∈ (r.next t txn rows).pending := mem_retries.2 ⟨_, hmem, hretryable⟩
        have hnext := FlushRound.valid_next t txn h
        have hsome : retries (r.outcomes t txn rows) ≠ [] := List.ne_nil_of_mem hi'
        have hlater : ∀ n r', (history t txn rows budget (r.next t txn rows))[n]? = some r' →
            ∀ s, (i, s) ∈ r'.outcomes t txn rows → s = answer (n + 1) := by
          intro n r' hr'
          refine hanswer (n + 1) r' ?_
          rw [history_of_retries hsome]
          exact hr'
        obtain ⟨status', hmem'⟩ := FlushRound.exists_outcome t txn rows hi'
        obtain rfl : status' = answer 1 := hlater 0 _ (history_zero budget _) status' hmem'
        have hrest := ih hnext hi' hlater hmem'
        rw [List.getLast?_cons, hrest]
        rfl
      · rfl

end Attempts

theorem valid_firstRound (rows : List Mutation) (world : τ) : (firstRound rows world).Valid rows where
  ordered := List.pairwise_lt_range
  bounded _ := List.mem_range.1

/-- **Attempts at the rows of a flush.**  For every transport, whatever it does, and every budget of
retries: a flush ends with one status per row, that of the last attempt at it.  It does its rounds one after
the other, each in the world that the one before it left, and they are one more than the budget at most.  In
each of them the locator is asked for every pending row; the row is in one batch then, that of the partition
where it was located, or could not be located and has failed; and what the partition answers is the outcome
of the row.  Exactly those rows are pending again in the next round whose outcome allows it, if the budget
does.  Where the outcome of a row depends on the row and the number of the attempt only, its status does
too.  Rows that end without success are counted as failed, and rows in batches as written. -/
theorem run_retries (t : Transport τ) (maxRetries : Nat) (txn : View) (rows : List Mutation)
    (stats : WriterStats) (world : τ) :
    let flushed := run t maxRetries txn rows stats world
    let history := history t txn rows maxRetries (firstRound rows world)
    (∃ last, history.getLast? = some last ∧ flushed.world = last.after t txn rows) ∧
    flushed.statuses.length = rows.length ∧
    (∀ i < rows.length, flushed.statuses[i]? = (attempts t txn rows history i).getLast? ∧
      Attempted maxRetries (attempts t txn rows history i)) ∧
    history.length ≤ maxRetries + 1 ∧
    history[0]? = some (firstRound rows world) ∧
    (∀ n r, history[n]? = some r → r.Routed t txn rows ∧
      (∀ r', history[n + 1]? = some r' → r'.world = r.after t txn rows) ∧
      ∀ i, (∃ r', history[n + 1]? = some r' ∧ i ∈ r'.pending) ↔
        n < maxRetries ∧ ∃ s, (i, s) ∈ r.outcomes t txn rows ∧ s.isRetryable = true) ∧
    (∀ answer : Mutation → Nat → Status,
      (∀ n r, history[n]? = some r → ∀ i s, (i, s) ∈ r.outcomes t txn rows →
        s = answer (rowAt rows i) n) →
      ∀ i < rows.length, flushed.statuses[i]? = some (lastAnswer maxRetries (answer (rowAt rows i)))) ∧
    flushed.stats.failedRows = stats.failedRows + (flushed.statuses.filter (!·.isSuccess)).length ∧
    flushed.stats.rowsWritten = stats.rowsWritten +
      ((history.flatMap fun r => r.batches t rows).flatMap Batch.indexes).length := by
  intro flushed tried
  have hvalid := valid_firstRound rows world
  have hpending : ∀ {i}, i < rows.length → i ∈ (firstRound rows world).pending := List.mem_range.2
  let start : FlushState τ :=
    { statuses := rows.map fun _ => .notRun, stats := stats.countFlush, world }
  have hdone : Performs t txn rows tried start
      (rounds t txn rows maxRetries (firstRound rows world).pending start) :=
    performs_rounds t txn maxRetries hvalid rfl
  have hlength : start.statuses.length = rows.length := List.length_map _
  have hattempted : ∀ i < rows.length, Attempted maxRetries (attempts t txn rows tried i) :=
    fun i hi => attempted_history maxRetries hvalid (hpending hi)
  have hlast : ∀ i < rows.length, flushed.statuses[i]? = (attempts t txn rows tried i).getLast? :=
    fun i hi => hdone.getElem?_of_attempted (hlength ▸ hi) (hattempted i hi).nonempty
  refine ⟨hdone.world, hdone.length_statuses.trans hlength,
    fun i hi => ⟨hlast i hi, hattempted i hi⟩, length_history_le _ _, history_zero _ _,
    fun n r hr => ⟨?_, fun r' hr' => ?_, fun i => ?_⟩, fun answer hanswer i hi => ?_,
    congrArg (· + _) hdone.failedRows, hdone.rowsWritten⟩
  · have hall : ∀ r ∈ tried, r.Valid rows :=
      forall_mem_history (fun r hr => FlushRound.valid_next t txn hr) hvalid
    exact FlushRound.routed t txn (hall r (List.mem_of_getElem? hr))
  · rw [history_succ hr] at hr'
    split at hr'
    · cases hr'
      rfl
    · contradiction
  · rw [history_succ hr, ← mem_retries]
    constructor
    · rintro ⟨r', hr', hi⟩
      split at hr'
      · rename_i hagain
        cases hr'
        exact ⟨hagain.1, hi⟩
      · contradiction
    · rintro ⟨hn, hi⟩
      exact ⟨_, if_pos ⟨hn, List.ne_nil_of_mem hi⟩, hi⟩
  · rw [hlast i hi]
    exact getLast?_attempts hvalid (hpending hi) fun n r hr s hs => hanswer n r hr i s hs

end Flush

end Multiversion
