import Multiversion.Proofs.Pipeline.Rejections

/-!
# Limits of a buffer

However a buffer is used, and whatever its hook and its writer do, it keeps its limits and loses nothing.

* `Buffering.Governed` — what holds of a buffer at any time;
* `Buffering.Standing` — what a run keeps, from which the rest follows.

Main statement: `Buffering.governed_runSteps` — every buffer is governed by its limits, along every list
of operations.
-/

namespace Multiversion

namespace Buffering

variable {ω : Type} {d : Delivery ω} {limits : BufferLimits}

/-- What holds of a buffer at any time, whatever is done next. -/
structure Governed (limits : BufferLimits) (d : Delivery ω) (s : Buffering (ω × DeliveryLog)) :
    Prop where
  measured : s.buffer.Measured limits
  -- After a submission that succeeds, no more is pending than the limits permit.
  added : ∀ row n, (add d.logged s row).1 = .ok n →
    (add d.logged s row).2.buffer.pending.length < limits.normalized.maxEntries ∧
      ((add d.logged s row).2.buffer.heapSize < limits.normalized.maxHeapSize ∨
        (add d.logged s row).2.buffer.pending = [])
  addFailed : s.buffer.closed = false → ∀ row e, (add d.logged s row).1 = .error e →
    (s.buffer.enqueue row).Retained (add d.logged s row).2.buffer
  flushFailed : s.buffer.closed = false → ∀ e, (flush d.logged s).1 = .error e →
    s.buffer.Retained (flush d.logged s).2.buffer
  closed : s.buffer.closed = true → (∀ next, step d.logged s next = ([], s)) ∧
    flush d.logged s = (.error (.closed s.buffer.destination), s) ∧
    ∀ row, add d.logged s row = (.error (.closed s.buffer.destination), s)
  -- Every event of a flush held back is that of one sending that finds the limit reached.
  rejections : ∀ next, (step d.logged s next).2.log.rejections =
      s.log.rejections ++ rejectionsOf d.logged (attempts d.logged s next) ∧
    (step d.logged s next).2.monitor.rejections =
      s.monitor.rejections + (rejectionsOf d.logged (attempts d.logged s next)).length
  -- A sending tells about a flush held back once if it finds the limit reached, and not otherwise.
  sending : ∀ next, ∀ a ∈ attempts d.logged s next,
    (sendPending d.logged a.1 a.2).2.log.rejections = a.2.log.rejections ++
      if findsFull d.logged a.2 then [(reap d.logged a.2).buffer.rejection] else []
  -- A sending that gives up has not given anything to the hook or the writer.
  gaveUp : ∀ next, ∀ a ∈ attempts d.logged s next, a.1 = .reject → findsFull d.logged a.2 = true →
    (sendPending d.logged .reject a.2).1 =
        .error (.rejected a.2.buffer.destination limits.normalized.maxFlushes
          limits.normalized.maxFlushes) ∧
      (sendPending d.logged .reject a.2).2.log.sendings = a.2.log.sendings

variable {s : Buffering ω}

/-- A buffer is open, with its accounts in order, or closed and idle. -/
structure Standing (limits : BufferLimits) (s : Buffering ω) : Prop where
  measured : s.buffer.Measured limits
  state : (∃ handed settled, s.Open handed settled) ∨ s.buffer.Idle

theorem Standing.step (hs : s.Standing limits) (next : BufferStep) :
    (step d s next).2.Standing limits where
  measured := measured_step hs.measured next
  state := by
    rcases hs.state with ⟨handed, settled, hopen⟩ | hidle
    · cases next with
      | close => exact .inr (idle_close hopen.closed)
      | call c =>
          obtain ⟨count, settled', -, hopen'⟩ := hopen.perform (d := d) c
          exact .inl ⟨_, settled', hopen'⟩
    · rw [step_of_idle hidle]
      exact .inr hidle

theorem Standing.runSteps (hs : s.Standing limits) (steps : List BufferStep) :
    (runSteps d s steps).Standing limits := by
  induction steps generalizing s with
  | nil => exact hs
  | cons next rest ih => exact ih (hs.step next)

theorem Standing.governed {s : Buffering (ω × DeliveryLog)} (hs : s.Standing limits) :
    s.Governed limits d where
  measured := hs.measured
  added row n hok := pending_of_add_ok hs.measured hok
  addFailed hopen row e herror := by
    rcases hs.state with ⟨handed, settled, hstate⟩ | hidle
    · exact retained_add hs.measured hstate.accounts hopen herror
    · rw [hidle.closed] at hopen
      cases hopen
  flushFailed hopen e herror := by
    rcases hs.state with ⟨handed, settled, hstate⟩ | hidle
    · rw [flush_of_open d.logged hopen] at herror ⊢
      exact retained_sendPending hs.measured.inLimits hstate.accounts herror
    · rw [hidle.closed] at hopen
      cases hopen
  closed hclosed := by
    rcases hs.state with ⟨handed, settled, hstate⟩ | hidle
    · rw [hstate.closed] at hclosed
      cases hclosed
    · exact ⟨step_of_idle hidle, flush_of_closed d.logged hclosed, add_of_closed d.logged hclosed⟩
  rejections next := ⟨(rejects_step hs.measured next).log, (rejects_step hs.measured next).monitor⟩
  sending next a ha := by
    have hrejects := rejects_sendPending (d := d) (measured_of_mem_attempts hs.measured ha).inLimits a.1
    rw [← rejectionsOf_single d.logged a.1]
    exact hrejects.log
  gaveUp next a ha _ hfull := sendPending_reject (measured_of_mem_attempts hs.measured ha) hfull

/-- A buffer that has just been opened is within its limits. -/
theorem standing_opening (destination : String) (txn : View) (limits : BufferLimits)
    (policy : Backpressure) (monitor : Monitor) (world : ω) :
    Standing limits { buffer := (CallBuffer.opening destination txn limits policy monitor).1,
                      monitor := (CallBuffer.opening destination txn limits policy monitor).2,
                      world } where
  measured := ⟨Nat.zero_le _, rfl, rfl⟩
  state := .inl ⟨0, 0, open_opening destination txn limits policy monitor world⟩

theorem forget_runSteps (d : Delivery ω) (s : Buffering (ω × DeliveryLog)) (steps : List BufferStep) :
    (runSteps d.logged s steps).forget = runSteps d s.forget steps := by
  induction steps generalizing s with
  | nil => rfl
  | cons next rest ih =>
      have hstep : (step d.logged s next).2.forget = (step d s.forget next).2 := by
        cases next with
        | call c => exact congrArg (·.2) (forget_perform d s c)
        | close => exact congrArg (·.2) (forget_close d s)
      exact (ih _).trans (congrArg (runSteps d · rest) hstep)

/-- **Limits are kept, and a flush that fails loses nothing.**  For every hook, every writer, all limits
and either policy, and along every list of operations, closing included: a log of what the hook and the
writer were given and answered changes nothing about the buffer, and the buffer is governed by its limits.
No more flushes are in flight than permitted; the heap size is that of the pending rows; after a
submission that succeeds no more is pending than permitted; a submission or a flush that fails leaves the
pending rows, and loses no status; a closed buffer stays as it is; and a sending that finds the limit
reached tells so once, and gives nothing to the hook or the writer if it gives up. -/
theorem governed_runSteps (d : Delivery ω) (destination : String) (txn : View) (limits : BufferLimits)
    (policy : Backpressure) (monitor : Monitor) (world : ω) (steps : List BufferStep) :
    let opened := CallBuffer.opening destination txn limits policy monitor
    let start : Buffering (ω × DeliveryLog) :=
      { buffer := opened.1, monitor := opened.2, world := (world, []) }
    (runSteps d.logged start steps).forget = runSteps d start.forget steps ∧
      (runSteps d.logged start steps).Governed limits d :=
  ⟨forget_runSteps d _ steps,
    ((standing_opening destination txn limits policy monitor (world, [])).runSteps steps).governed⟩

end Buffering

end Multiversion
