import Multiversion.Proofs.Pipeline.Sending

/-!
# The sizes of a buffer, and flushes that fail

Rows stay pending until the writer has taken them.  A submission or a flush that fails leaves them where
they are, and only collects flushes that have ended; on a closed buffer no operation does anything.

* `CallBuffer.Measured` — the sizes of a buffer are right and within its limits;
* `CallBuffer.Retained` — what a failed flush leaves;
* `Buffering.step` — an operation, closing included.

Main statements: `Buffering.measured_step`, `Buffering.pending_of_add_ok`, `Buffering.retained_add`,
`Buffering.step_of_idle`.
-/

namespace Multiversion

/-- An operation of a buffer.  A buffer that is dropped is closed. -/
inductive BufferStep where
  | call (c : BufferCall)
  | close

namespace CallBuffer

variable {b : CallBuffer} {limits : BufferLimits}

/-- No more flushes are in flight than the limits permit, and the heap size is the number of bytes in the
keys and values of the pending rows. -/
structure Measured (limits : BufferLimits) (b : CallBuffer) : Prop where
  flights : b.inFlight.length ≤ limits.normalized.maxFlushes
  limits : b.limits = limits.normalized
  heapSize : b.heapSize = (b.pending.flatMap fun p => p.row.key ++ p.row.value).length

namespace Measured

theorem inLimits (h : b.Measured limits) : b.InLimits where
  flights := h.limits ▸ h.flights
  positive := by
    rw [h.limits]
    exact Nat.le_max_right _ _

theorem collect (h : b.Measured limits) (results : List FlushResult) :
    (b.collect results).Measured limits where
  limits := h.limits
  flights := h.limits ▸ (h.inLimits.collect results).flights
  heapSize := h.heapSize

theorem enqueue (h : b.Measured limits) (row : Mutation) : (b.enqueue row).Measured limits where
  limits := h.limits
  flights := h.flights
  heapSize := by
    rw [CallBuffer.enqueue, List.flatMap_append, List.length_append, ← h.heapSize]
    simp [Mutation.heapSize]

theorem launch (h : b.Measured limits) (hroom : b.inFlight.length < b.limits.maxFlushes)
    (sent : List Nat) (ticket : Ticket) : (b.launch sent ticket).Measured limits where
  limits := h.limits
  flights := by
    rw [h.limits] at hroom
    simpa [CallBuffer.launch] using Nat.succ_le_of_lt hroom
  heapSize := rfl

end Measured

/-- What a failed flush leaves of a buffer: flushes that have ended have been collected, and nothing else
has changed.  The pending rows are the same, in the same order; and no status is lost. -/
structure Retained (b b' : CallBuffer) : Prop where
  collected : ∃ results, b' = b.collect results
  pending : b'.pending = b.pending
  recorded : ∀ (n : Nat) (status : Status), b.completed[n]? = some status →
    b'.completed[n]? = some status
  underway : ∀ n ∈ b.inFlight.flatMap Flight.submitted,
    n ∈ b'.completed ∨ n ∈ b'.inFlight.flatMap Flight.submitted

/-- Statuses of other rows stay recorded. -/
theorem getElem?_record_of_not_mem {rows : List RowStatus} {n : Nat}
    (h : n ∉ rows.map RowStatus.seq) : (b.record rows).completed[n]? = b.completed[n]? := by
  show (rows.foldl (fun done r => done.insert r.seq r.status) b.completed)[n]? = _
  generalize b.completed = done
  induction rows generalizing done with
  | nil => rfl
  | cons r rest ih =>
      obtain ⟨hr, hrest⟩ := not_or.1 (List.mem_cons.not.1 h)
      rw [List.foldl_cons, ih hrest, Std.ExtTreeMap.getElem?_insert, if_neg]
      simpa using Ne.symm hr

/-- The rows that get a status as flushes are collected are those that were submitted with them. -/
theorem map_seq_collected (b : CallBuffer) (results : List FlushResult) :
    ((b.inFlight.zip results).flatMap fun ended => ended.1.settle ended.2).map RowStatus.seq =
      (b.inFlight.take results.length).flatMap Flight.submitted := by
  generalize b.inFlight = flights
  induction results generalizing flights with
  | nil => simp
  | cons result rest ih =>
      cases flights with
      | nil => rfl
      | cons flight flights =>
          simp only [List.zip_cons_cons, List.flatMap_cons, List.map_append, ih, Flight.map_seq_settle,
            List.length_cons, List.take_succ_cons]

/-- **Collecting flushes loses nothing**: they are those of rows that had no status. -/
theorem Accounts.retained_collect {handed settled : Nat} (h : b.Accounts handed settled)
    (results : List FlushResult) : b.Retained (b.collect results) where
  collected := ⟨results, rfl⟩
  pending := rfl
  recorded n status hstatus := by
    refine (getElem?_record_of_not_mem ?_).trans hstatus
    rw [map_seq_collected]
    intro hmem
    obtain ⟨flight, hflight, hn⟩ := List.mem_flatMap.1 hmem
    have hunderway : n ∈ b.underway :=
      List.mem_append_left _ (List.mem_flatMap.2 ⟨flight, List.mem_of_mem_take hflight, hn⟩)
    have hrecorded := (h.recorded n).1 (Std.ExtTreeMap.mem_iff_isSome_getElem?.2 (by simp [hstatus]))
    obtain ⟨count, hrange, -⟩ := h.underway
    rw [hrange, List.mem_range'_1] at hunderway
    omega
  underway n hn := by
    rw [collect, mem_completed_record, map_seq_collected]
    rw [← List.take_append_drop results.length b.inFlight, List.flatMap_append, List.mem_append] at hn
    exact hn.imp_left .inl

end CallBuffer

namespace Buffering

variable {ω : Type}

/-- One operation, and the statuses that it hands out. -/
def step (d : Delivery ω) (s : Buffering ω) : BufferStep → List RowStatus × Buffering ω
  | .call c => perform d s c
  | .close => close d s

/-- A list of operations. -/
def runSteps (d : Delivery ω) (s : Buffering ω) (steps : List BufferStep) : Buffering ω :=
  steps.foldl (fun s next => (step d s next).2) s

variable {d : Delivery ω} {limits : BufferLimits}

section Measured

variable {s : Buffering ω}

theorem steady_measured (d : Delivery ω) (limits : BufferLimits) :
    Steady d fun s => s.buffer.Measured limits where
  completeOldest s hs := by
    obtain ⟨results, -, hcollect⟩ := completeOldest_collect d s
    exact hcollect ▸ hs.collect results
  asked _ _ hs := hs

theorem measured_handOver (hs : s.buffer.Measured limits)
    (hroom : s.buffer.inFlight.length < s.buffer.limits.maxFlushes) :
    (handOver d s).2.buffer.Measured limits := by
  rcases handOver_cases d s with ⟨_, -, hsame⟩ | ⟨sent, ticket, -, hlaunch⟩
  · exact hsame ▸ hs
  · exact hlaunch ▸ hs.launch hroom sent ticket

theorem measured_sendPending (hs : s.buffer.Measured limits) (policy : Backpressure) :
    (sendPending d policy s).2.buffer.Measured limits := by
  have hreap : (reap d s).buffer.Measured limits := (steady_measured d limits).reap hs
  have hheld : (heldBack d (reap d s)).buffer.Measured limits := hreap
  have hsends := sends_sendPending (d := d) hs.inLimits policy
  generalize sendPending d policy s = sent at hsends
  cases hsends with
  | nothing => exact hs
  | room _ hroom => exact measured_handOver hreap hroom
  | wait =>
      exact measured_handOver ((steady_measured d limits).completeOldest _ hheld)
        (room_completeOldest hheld.inLimits)
  | giveUp => exact hheld

theorem lasting_measured (d : Delivery ω) (limits : BufferLimits) :
    Lasting d fun s => s.buffer.Measured limits where
  queued _ row hs := hs.enqueue row
  sendPending _ policy hs := measured_sendPending hs policy

theorem measured_close (hs : s.buffer.Measured limits) : (close d s).2.buffer.Measured limits := by
  by_cases hclosed : s.buffer.closed
  · rw [close, if_pos hclosed]
    exact hs
  · have hsent := measured_sendPending (d := d) (s := s.closing)
      ⟨hs.flights, hs.limits, hs.heapSize⟩ .block
    have hlast : (sendLast d s.closing).buffer.Measured limits := by
      unfold sendLast
      split
      · rename_i hfailed
        rw [hfailed] at hsent
        exact ⟨hsent.flights, hsent.limits, rfl⟩
      · rename_i hok
        rwa [hok] at hsent
    have hleft := (steady_measured d limits).completeAll hlast
    rw [close_of_open d (by simpa using hclosed)]
    exact ⟨hleft.flights, hleft.limits, hleft.heapSize⟩

theorem measured_step (hs : s.buffer.Measured limits) (next : BufferStep) :
    (step d s next).2.buffer.Measured limits := by
  cases next with
  | close => exact measured_close hs
  | call c =>
      cases c with
      | add row => exact (lasting_measured d limits).add hs row
      | addAll rows => exact (lasting_measured d limits).addAll hs rows
      | flush => exact (lasting_measured d limits).flush hs
      | takeCompleted =>
          have hreap := (steady_measured d limits).reap hs
          exact ⟨hreap.flights, hreap.limits, hreap.heapSize⟩

end Measured

section Submissions

variable {s : Buffering ω} {row : Mutation}

/-- After a submission that succeeds, no more is pending than the limits permit. -/
theorem pending_of_add_ok (hs : s.buffer.Measured limits) {n : Nat} (hok : (add d s row).1 = .ok n) :
    (add d s row).2.buffer.pending.length < limits.normalized.maxEntries ∧
      ((add d s row).2.buffer.heapSize < limits.normalized.maxHeapSize ∨
        (add d s row).2.buffer.pending = []) := by
  have hopen : s.buffer.closed = false := by
    by_contra hclosed
    rw [add_of_closed d (by simpa using hclosed)] at hok
    cases hok
  cases hfull : (s.buffer.enqueue row).isFull with
  | false =>
      rw [add_of_room d hopen hfull]
      simp only [CallBuffer.isFull, Bool.or_eq_false_iff, decide_eq_false_iff_not, Nat.not_le] at hfull
      rw [show (s.buffer.enqueue row).limits = limits.normalized from hs.limits] at hfull
      exact ⟨hfull.1, .inl hfull.2⟩
  | true =>
      rw [add_of_full d hopen hfull] at hok ⊢
      have hsent := (advances_sendPending d (s.queued row) s.buffer.policy).2
      have hnone : (sendPending d s.buffer.policy (s.queued row)).2.buffer.pending = [] := by
        refine hsent ?_
        cases hanswer : (sendPending d s.buffer.policy (s.queued row)).1 with
        | ok => rfl
        | error e => simp [hanswer, Except.map] at hok
      refine ⟨?_, .inr hnone⟩
      show List.length (sendPending d s.buffer.policy _).2.buffer.pending < _
      rw [hnone]
      exact Nat.le_max_right _ _

/-- A sending that fails leaves the pending rows, and loses no status. -/
theorem retained_sendPending (hs : s.buffer.InLimits) {handed settled : Nat}
    (haccounts : s.buffer.Accounts handed settled) {policy : Backpressure} {e : PipelineError}
    (herror : (sendPending d policy s).1 = .error e) :
    s.buffer.Retained (sendPending d policy s).2.buffer := by
  obtain ⟨results, hcollect⟩ := collect_of_sendPending_error hs herror
  rw [hcollect]
  exact haccounts.retained_collect results

theorem retained_add (hs : s.buffer.Measured limits) {handed settled : Nat}
    (haccounts : s.buffer.Accounts handed settled) (hopen : s.buffer.closed = false)
    {e : PipelineError} (herror : (add d s row).1 = .error e) :
    (s.buffer.enqueue row).Retained (add d s row).2.buffer := by
  cases hfull : (s.buffer.enqueue row).isFull with
  | false =>
      rw [add_of_room d hopen hfull] at herror
      cases herror
  | true =>
      rw [add_of_full d hopen hfull] at herror ⊢
      refine retained_sendPending (s := s.queued row)
        (hs.enqueue row).inLimits (haccounts.enqueue row) (e := e) ?_
      cases hanswer : (sendPending d s.buffer.policy (s.queued row)).1 with
      | ok => simp [hanswer, Except.map] at herror
      | error e' => simpa [hanswer, Except.map] using herror

/-- **An operation on a closed buffer changes nothing.** -/
theorem step_of_idle (h : s.buffer.Idle) (next : BufferStep) : step d s next = ([], s) := by
  cases next with
  | close => exact if_pos h.closed
  | call c =>
      cases c with
      | add row => exact Prod.ext rfl (congrArg (·.2) (add_of_closed d h.closed row))
      | addAll rows =>
          refine Prod.ext rfl ?_
          cases rows with
          | nil => rfl
          | cons row rest =>
              show (addAll d s (row :: rest)).2 = s
              rw [addAll, add_of_closed d h.closed]
      | flush => exact Prod.ext rfl (congrArg (·.2) (flush_of_closed d h.closed))
      | takeCompleted =>
          show drain (reap d s) = _
          rw [reap_of_idle h, drain_of_idle h]

end Submissions

end Buffering

end Multiversion
