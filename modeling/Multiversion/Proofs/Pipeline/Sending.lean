import Multiversion.Proofs.Pipeline.Statuses

/-!
# What sending does to a buffer

Before a buffer hands its pending rows over, it collects the flushes that have ended and makes room for
one more.  As long as no more flushes are in flight than permitted, the limit is found reached at most
once: then one flush is waited for, or the rows stay pending.

* `CallBuffer.collect` — the buffer after its oldest flushes have ended;
* `Buffering.Steady` — what a buffer keeps while it looks after flushes and collects them;
* `Buffering.Lasting` — what it keeps while rows are submitted and sent;
* `CallBuffer.InLimits` — no more flushes are in flight than permitted;
* `Buffering.Sends` — the four ways in which sending goes on from there;
* `CallBuffer.Idle` — what closing leaves.
-/

namespace Multiversion

/-- Pairing a list with one list after the other. -/
theorem zip_append_eq {α β : Type} (as : List α) (bs more : List β) :
    as.zip (bs ++ more) = as.zip bs ++ (as.drop bs.length).zip more := by
  induction bs generalizing as with
  | nil => simp
  | cons b bs ih =>
      cases as with
      | nil => simp
      | cons a as => simp [ih]

namespace CallBuffer

/-- The buffer after its oldest flushes have ended with the given results. -/
def collect (b : CallBuffer) (results : List FlushResult) : CallBuffer :=
  let left := { b with inFlight := b.inFlight.drop results.length }
  left.record ((b.inFlight.zip results).flatMap fun ended => ended.1.settle ended.2)

variable {b : CallBuffer}

theorem collect_nil (b : CallBuffer) : b.collect [] = b := by
  simp [collect, record]

theorem collect_singleton {flight : Flight} {rest : List Flight} (holdest : b.inFlight = flight :: rest)
    (result : FlushResult) :
    b.collect [result] = { b with inFlight := rest }.record (flight.settle result) := by
  simp [collect, holdest]

/-- Flushes end one after the other. -/
theorem collect_collect (b : CallBuffer) (results more : List FlushResult) :
    (b.collect results).collect more = b.collect (results ++ more) := by
  simp [collect, record, zip_append_eq]

/-- No more flushes are in flight than permitted, which is one at least. -/
structure InLimits (b : CallBuffer) : Prop where
  flights : b.inFlight.length ≤ b.limits.maxFlushes
  positive : 0 < b.limits.maxFlushes

/-- A buffer that is closed and has nothing left. -/
structure Idle (b : CallBuffer) : Prop where
  closed : b.closed = true
  pending : b.pending = []
  inFlight : b.inFlight = []
  completed : b.completed = ∅

theorem InLimits.collect (h : b.InLimits) (results : List FlushResult) :
    (b.collect results).InLimits where
  flights := by
    have hflights := h.flights
    simp only [CallBuffer.collect, record, List.length_drop]
    omega
  positive := h.positive

end CallBuffer

namespace Buffering

variable {ω : Type}

/-- A flush is held back: it is counted, and whoever is told about it is told. -/
def heldBack (d : Delivery ω) (s : Buffering ω) : Buffering ω :=
  { s with
    monitor := s.monitor.flushRejected
    world := d.rejected s.buffer.rejection s.world }

/-- A buffer with one more row pending. -/
def queued (s : Buffering ω) (row : Mutation) : Buffering ω :=
  { s with buffer := s.buffer.enqueue row }

/-- A buffer that is about to close. -/
def closing (s : Buffering ω) : Buffering ω := { s with buffer := { s.buffer with closed := true } }

variable {d : Delivery ω} {s : Buffering ω} {policy : Backpressure}

section Submissions

variable {row : Mutation}

theorem flush_of_closed (d : Delivery ω) (hclosed : s.buffer.closed = true) :
    flush d s = (.error (.closed s.buffer.destination), s) := by
  rw [flush, if_pos hclosed]

theorem flush_of_open (d : Delivery ω) (hopen : s.buffer.closed = false) :
    flush d s = sendPending d s.buffer.policy s := by
  rw [flush, if_neg (by simp [hopen])]

theorem add_of_closed (d : Delivery ω) (hclosed : s.buffer.closed = true) (row : Mutation) :
    add d s row = (.error (.closed s.buffer.destination), s) := by
  rw [add, if_pos hclosed]

/-- A submission that finds enough pending sends it. -/
theorem add_of_full (d : Delivery ω) (hopen : s.buffer.closed = false)
    (hfull : (s.buffer.enqueue row).isFull = true) :
    add d s row = (sendPending d s.buffer.policy (s.queued row)).map
      (Except.map fun _ => s.buffer.nextSeq) id := by
  have hflush : flush d { s with buffer := s.buffer.enqueue row } =
      sendPending d s.buffer.policy (s.queued row) :=
    flush_of_open d (s := s.queued row) hopen
  rw [add, if_neg (by simp [hopen])]
  refine (if_pos hfull).trans ?_
  rw [hflush]
  cases sendPending d s.buffer.policy (s.queued row) with
  | mk answer s' => cases answer <;> rfl

theorem add_of_room (d : Delivery ω) (hopen : s.buffer.closed = false)
    (hroom : (s.buffer.enqueue row).isFull = false) :
    add d s row = (.ok s.buffer.nextSeq, s.queued row) := by
  rw [add, if_neg (by simp [hopen])]
  exact if_neg (by simp [hroom])

end Submissions

/-- A property that is kept as flushes are looked after and collected. -/
structure Steady (d : Delivery ω) (P : Buffering ω → Prop) : Prop where
  completeOldest : ∀ s, P s → P (completeOldest d s)
  asked : ∀ s ticket, P s → P { s with world := (d.isDone ticket s.world).2 }

namespace Steady

variable {P : Buffering ω → Prop} (h : Steady d P)
include h

theorem reapWithin (fuel : Nat) (hs : P s) : P (reapWithin d fuel s) := by
  fun_induction Buffering.reapWithin d fuel s with
  | case1 => exact hs
  | case2 => exact hs
  | case3 fuel s flight rest holdest world hdone ih =>
      refine ih (h.completeOldest _ ?_)
      simpa [hdone] using h.asked s flight.ticket hs
  | case4 fuel s flight rest holdest world hdone =>
      simpa [hdone] using h.asked s flight.ticket hs

theorem reap (hs : P s) : P (reap d s) := h.reapWithin _ hs

theorem completeAllWithin (fuel : Nat) (hs : P s) : P (completeAllWithin d fuel s) := by
  induction fuel generalizing s with
  | zero => exact hs
  | succ fuel ih => exact ih (h.completeOldest s hs)

theorem completeAll (hs : P s) : P (completeAll d s) := h.completeAllWithin _ hs

end Steady

/-- A property that is kept as rows are queued and sent. -/
structure Lasting (d : Delivery ω) (P : Buffering ω → Prop) : Prop where
  queued : ∀ s row, P s → P (queued s row)
  sendPending : ∀ s policy, P s → P (sendPending d policy s).2

namespace Lasting

variable {P : Buffering ω → Prop} (h : Lasting d P)
include h

theorem flush (hs : P s) : P (flush d s).2 := by
  cases hclosed : s.buffer.closed with
  | true =>
      rw [flush_of_closed d hclosed]
      exact hs
  | false =>
      rw [flush_of_open d hclosed]
      exact h.sendPending s _ hs

theorem add (hs : P s) (row : Mutation) : P (add d s row).2 := by
  cases hclosed : s.buffer.closed with
  | true =>
      rw [add_of_closed d hclosed]
      exact hs
  | false =>
      cases hfull : (s.buffer.enqueue row).isFull with
      | true =>
          rw [add_of_full d hclosed hfull]
          exact h.sendPending _ _ (h.queued s row hs)
      | false =>
          rw [add_of_room d hclosed hfull]
          exact h.queued s row hs

theorem addAll (hs : P s) (rows : List Mutation) : P (addAll d s rows).2 := by
  induction rows generalizing s with
  | nil => exact hs
  | cons row rest ih =>
      have hadd := h.add hs row
      unfold Buffering.addAll
      split
      · rename_i hfailed
        rwa [hfailed] at hadd
      · rename_i hok
        rw [hok] at hadd
        exact ih hadd

end Lasting

/-- The oldest flush in flight, if there is one, ends with some result. -/
theorem completeOldest_collect (d : Delivery ω) (s : Buffering ω) :
    ∃ results, results.length = min 1 s.buffer.inFlight.length ∧
      (completeOldest d s).buffer = s.buffer.collect results := by
  unfold completeOldest
  split
  · rename_i hnone
    exact ⟨[], by simp [hnone], s.buffer.collect_nil.symm⟩
  · rename_i flight rest holdest
    exact ⟨[(d.wait flight.ticket s.world).1], by simp [holdest],
      (CallBuffer.collect_singleton holdest _).symm⟩

/-- **Until it hands rows over, a buffer only collects flushes**, from the oldest on. -/
theorem steady_collect (d : Delivery ω) (b : CallBuffer) :
    Steady d fun s => ∃ results, s.buffer = b.collect results where
  completeOldest s := by
    rintro ⟨results, hs⟩
    obtain ⟨more, -, hcollect⟩ := completeOldest_collect d s
    exact ⟨results ++ more, by rw [hcollect, hs, CallBuffer.collect_collect]⟩
  asked _ _ hs := hs

theorem reap_collect (d : Delivery ω) (s : Buffering ω) :
    ∃ results, (reap d s).buffer = s.buffer.collect results :=
  (steady_collect d s.buffer).reap ⟨[], s.buffer.collect_nil.symm⟩

theorem inLimits_completeOldest (h : s.buffer.InLimits) : (completeOldest d s).buffer.InLimits := by
  obtain ⟨results, -, hcollect⟩ := completeOldest_collect d s
  exact hcollect ▸ h.collect results

theorem inLimits_reap (h : s.buffer.InLimits) : (reap d s).buffer.InLimits := by
  obtain ⟨results, hreap⟩ := reap_collect d s
  exact hreap ▸ h.collect results

/-- The limit is not reached any more once the oldest flush has ended. -/
theorem room_completeOldest (h : s.buffer.InLimits) :
    (completeOldest d s).buffer.inFlight.length < (completeOldest d s).buffer.limits.maxFlushes := by
  obtain ⟨results, hlength, hcollect⟩ := completeOldest_collect d s
  have hflights := h.flights
  have hpositive := h.positive
  rw [hcollect]
  simp only [CallBuffer.collect, CallBuffer.record, List.length_drop, hlength]
  omega

theorem makeRoom_of_room (h : s.buffer.inFlight.length < s.buffer.limits.maxFlushes) :
    makeRoom d policy s = (.ok (), s) := by
  rw [makeRoom, makeRoomWithin, if_pos h]

theorem makeRoom_of_full_block (h : s.buffer.InLimits)
    (hfull : s.buffer.limits.maxFlushes ≤ s.buffer.inFlight.length) :
    makeRoom d .block s = (.ok (), completeOldest d (heldBack d s)) := by
  obtain ⟨n, hn⟩ : ∃ n, s.buffer.inFlight.length = n + 1 :=
    Nat.exists_eq_add_one.2 (Nat.lt_of_lt_of_le h.positive hfull)
  have hroom := room_completeOldest (d := d) (s := heldBack d s) h
  rw [makeRoom, makeRoomWithin, if_neg (Nat.not_lt.2 hfull), hn]
  show makeRoomWithin d .block (n + 1) (completeOldest d (heldBack d s)) = _
  rw [makeRoomWithin, if_pos hroom]

theorem makeRoom_of_full_reject (hfull : s.buffer.limits.maxFlushes ≤ s.buffer.inFlight.length) :
    makeRoom d .reject s =
      (.error (.rejected s.buffer.destination s.buffer.inFlight.length s.buffer.limits.maxFlushes),
        heldBack d s) := by
  rw [makeRoom, makeRoomWithin, if_neg (Nat.not_lt.2 hfull)]
  rfl

/-- **The ways in which sending goes on**: there is nothing to send; or there is room for a flush once
those that have ended are collected; or there is none, and then the policy waits for the oldest flush,
which makes room, or gives up. -/
inductive Sends (d : Delivery ω) (s : Buffering ω) :
    Backpressure → Except PipelineError Unit × Buffering ω → Prop
  | nothing {policy : Backpressure} (hnone : s.buffer.pending = []) : Sends d s policy (.ok (), s)
  | room {policy : Backpressure} (hsome : s.buffer.pending ≠ [])
      (hroom : (reap d s).buffer.inFlight.length < (reap d s).buffer.limits.maxFlushes) :
      Sends d s policy (handOver d (reap d s))
  | wait (hsome : s.buffer.pending ≠ [])
      (hfull : (reap d s).buffer.inFlight.length = (reap d s).buffer.limits.maxFlushes) :
      Sends d s .block (handOver d (completeOldest d (heldBack d (reap d s))))
  | giveUp (hsome : s.buffer.pending ≠ [])
      (hfull : (reap d s).buffer.inFlight.length = (reap d s).buffer.limits.maxFlushes) :
      Sends d s .reject
        (.error (.rejected (reap d s).buffer.destination (reap d s).buffer.inFlight.length
          (reap d s).buffer.limits.maxFlushes), heldBack d (reap d s))

theorem sends_sendPending (h : s.buffer.InLimits) (policy : Backpressure) :
    Sends d s policy (sendPending d policy s) := by
  have hlimits : (reap d s).buffer.InLimits := inLimits_reap h
  unfold sendPending
  split
  · rename_i hempty
    exact .nothing (List.isEmpty_iff.1 hempty)
  · rename_i hsome
    rw [List.isEmpty_iff] at hsome
    rcases Nat.lt_or_ge (reap d s).buffer.inFlight.length (reap d s).buffer.limits.maxFlushes with
      hroom | hfull
    · rw [makeRoom_of_room hroom]
      exact .room hsome hroom
    · have heq := Nat.le_antisymm hlimits.flights hfull
      cases policy with
      | block =>
          rw [makeRoom_of_full_block hlimits hfull]
          exact .wait hsome heq
      | reject =>
          rw [makeRoom_of_full_reject hfull]
          exact .giveUp hsome heq

/-- Handing rows over launches a flush, or leaves the buffer as it is. -/
theorem handOver_cases (d : Delivery ω) (s : Buffering ω) :
    (∃ e, (handOver d s).1 = .error e ∧ (handOver d s).2.buffer = s.buffer) ∨
      ∃ sent ticket, (handOver d s).1 = .ok () ∧
        (handOver d s).2.buffer = s.buffer.launch sent ticket := by
  unfold handOver
  split
  · exact .inl ⟨_, rfl, rfl⟩
  · split
    · exact .inl ⟨_, rfl, rfl⟩
    · exact .inr ⟨_, _, rfl, rfl⟩

/-- **When sending fails**, flushes have been collected, and nothing else has changed. -/
theorem collect_of_sendPending_error (h : s.buffer.InLimits) {e : PipelineError}
    (herror : (sendPending d policy s).1 = .error e) :
    ∃ results, (sendPending d policy s).2.buffer = s.buffer.collect results := by
  have hreap := reap_collect d s
  have hsends := sends_sendPending (d := d) h policy
  generalize sendPending d policy s = sent at herror hsends
  -- A failed hand-over leaves the buffer as it is.
  have hover : ∀ s', (∃ results, s'.buffer = s.buffer.collect results) → (handOver d s').1 = .error e →
      ∃ results, (handOver d s').2.buffer = s.buffer.collect results := by
    intro s' hs' herror
    rcases handOver_cases d s' with ⟨_, -, hsame⟩ | ⟨_, _, hok, -⟩
    · exact hsame ▸ hs'
    · rw [hok] at herror
      cases herror
  cases hsends with
  | nothing => cases herror
  | room => exact hover _ hreap herror
  | wait =>
      exact hover _ ((steady_collect d s.buffer).completeOldest (heldBack d (reap d s)) hreap) herror
  | giveUp => exact hreap

/-- **A buffer that has been closed has nothing left.** -/
theorem idle_close (hopen : s.buffer.closed = false) : (close d s).2.buffer.Idle := by
  obtain ⟨hadvances, hflights, hpending⟩ := completeAllWithin_spec (d := d) (s := sendLast d s.closing)
    (sendLast d s.closing).buffer.inFlight.length
  obtain ⟨hnone, -, hclosed⟩ := sendLast_spec d s.closing
  rw [close_of_open d hopen]
  exact {
    closed := hadvances.closed_eq.trans hclosed
    pending := hpending.trans hnone
    inFlight := hflights.trans List.drop_length
    completed := rfl }

/-- An idle buffer has nothing to collect. -/
theorem reap_of_idle (h : s.buffer.Idle) : reap d s = s := by
  rw [reap, h.inFlight]
  rfl

theorem drain_of_idle (h : s.buffer.Idle) : drain s = ([], s) := by
  have hnone : s.buffer.completed.toList = [] := Std.ExtTreeMap.toList_eq_nil_iff.2 h.completed
  rw [drain, CallBuffer.drain, hnone, ← h.completed]
  rfl

end Buffering

end Multiversion
