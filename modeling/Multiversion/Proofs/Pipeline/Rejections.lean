import Multiversion.Proofs.Pipeline.DeliveryLog
import Multiversion.Proofs.Pipeline.FailedFlushes

/-!
# Flushes held back

A sending that finds as many flushes in flight as permitted is held back: whoever is told about it is
told, and it is counted.  Every such event is that of one sending.

* `Buffering.attempts` — the sendings that an operation attempts;
* `Buffering.findsFull` — a sending finds the limit reached;
* `Buffering.Rejects` — the events between two states of a buffer.

Main statements: `Buffering.rejects_step` — the events of an operation are those of its sendings that
find the limit reached, one for each; `Buffering.sendPending_reject` — a sending that gives up gives
nothing to the hook or the writer.
-/

namespace Multiversion

namespace Buffering

variable {ω : Type}

/-- Whether a sending has something to send, and finds the limit of flushes in flight reached. -/
def findsFull (d : Delivery ω) (s : Buffering ω) : Bool :=
  !s.buffer.pending.isEmpty &&
    (reap d s).buffer.limits.maxFlushes ≤ (reap d s).buffer.inFlight.length

/-- The sending that a submission attempts, with its policy and the state in which it begins. -/
def attemptsOfAdd (s : Buffering ω) (row : Mutation) : List (Backpressure × Buffering ω) :=
  if s.buffer.closed then []
  else if (s.buffer.enqueue row).isFull then
    [(s.buffer.policy, s.queued row)]
  else []

/-- The sendings that submissions attempt, up to the first one that fails. -/
def attemptsOfAddAll (d : Delivery ω) (s : Buffering ω) :
    List Mutation → List (Backpressure × Buffering ω)
  | [] => []
  | row :: rest =>
      s.attemptsOfAdd row ++
        match add d s row with
        | (.error _, _) => []
        | (.ok _, s) => attemptsOfAddAll d s rest

/-- The sendings that an operation attempts. -/
def attempts (d : Delivery ω) (s : Buffering ω) : BufferStep → List (Backpressure × Buffering ω)
  | .call (.add row) => s.attemptsOfAdd row
  | .call (.addAll rows) => attemptsOfAddAll d s rows
  | .call .flush => if s.buffer.closed then [] else [(s.buffer.policy, s)]
  | .call .takeCompleted => []
  | .close => if s.buffer.closed then [] else [(.block, s.closing)]

/-- The events of those sendings that find the limit reached, one for each. -/
def rejectionsOf (d : Delivery ω) (sendings : List (Backpressure × Buffering ω)) :
    List RejectionEvent :=
  (sendings.filter fun a => findsFull d a.2).map fun a => (reap d a.2).buffer.rejection

variable {d : Delivery ω} {limits : BufferLimits}

/-- Sendings begin with the sizes right. -/
theorem measured_of_mem_attempts {s : Buffering ω} (hs : s.buffer.Measured limits) {next : BufferStep}
    {a : Backpressure × Buffering ω} (ha : a ∈ attempts d s next) : a.2.buffer.Measured limits := by
  have hadd : ∀ {s : Buffering ω} {row : Mutation}, s.buffer.Measured limits →
      a ∈ s.attemptsOfAdd row → a.2.buffer.Measured limits := by
    intro s row hs ha
    simp only [attemptsOfAdd, List.mem_ite_nil_left, List.mem_ite_nil_right, List.mem_singleton] at ha
    rw [ha.2.2]
    exact hs.enqueue row
  cases next with
  | close =>
      simp only [attempts, List.mem_ite_nil_left, List.mem_singleton] at ha
      rw [ha.2]
      exact ⟨hs.flights, hs.limits, hs.heapSize⟩
  | call c =>
      cases c with
      | add row => exact hadd hs ha
      | addAll rows =>
          induction rows generalizing s with
          | nil => cases ha
          | cons row rest ih =>
              have hmeasured := (lasting_measured d limits).add hs row
              rcases List.mem_append.1 ha with ha | ha
              · exact hadd hs ha
              · cases hadded : add d s row with
                | mk answer s' =>
                    rw [hadded] at ha hmeasured
                    cases answer with
                    | error e => cases ha
                    | ok n => exact ih hmeasured ha
      | flush =>
          simp only [attempts, List.mem_ite_nil_left, List.mem_singleton] at ha
          rw [ha.2]
          exact hs
      | takeCompleted => cases ha

section Rejections

variable {s s' s'' : Buffering (ω × DeliveryLog)} {policy : Backpressure}

/-- Some flushes have been held back: whoever is told about them was told, and they were counted. -/
structure Rejects (s s' : Buffering (ω × DeliveryLog)) (events : List RejectionEvent) : Prop where
  log : s'.log.rejections = s.log.rejections ++ events
  monitor : s'.monitor.rejections = s.monitor.rejections + events.length

theorem Rejects.refl (s : Buffering (ω × DeliveryLog)) : s.Rejects s [] := ⟨by simp, rfl⟩

theorem Rejects.trans {events more : List RejectionEvent} (h : s.Rejects s' events)
    (h' : s'.Rejects s'' more) : s.Rejects s'' (events ++ more) where
  log := by rw [h'.log, h.log, List.append_assoc]
  monitor := by rw [h'.monitor, h.monitor, List.length_append, Nat.add_assoc]

theorem rejects_completeOldest (d : Delivery ω) (s : Buffering (ω × DeliveryLog)) :
    s.Rejects (completeOldest d.logged s) [] := by
  unfold completeOldest
  split
  · exact .refl s
  · exact ⟨(DeliveryLog.rejections_cons_none rfl).trans (List.append_nil _).symm, rfl⟩

/-- Collecting flushes holds none back. -/
theorem steady_rejects (d : Delivery ω) (s : Buffering (ω × DeliveryLog)) :
    Steady d.logged fun s' => s.Rejects s' [] where
  completeOldest s' hs := hs.trans (rejects_completeOldest d s')
  asked _ _ hs := hs.trans ⟨(DeliveryLog.rejections_cons_none rfl).trans (List.append_nil _).symm, rfl⟩

theorem rejects_heldBack (d : Delivery ω) (s : Buffering (ω × DeliveryLog)) :
    s.Rejects (heldBack d.logged s) [s.buffer.rejection] :=
  ⟨DeliveryLog.rejections_cons _ _, rfl⟩

theorem rejects_handOver (d : Delivery ω) (s : Buffering (ω × DeliveryLog)) :
    s.Rejects (handOver d.logged s).2 [] where
  log := (log_handOver d s).2.1.trans (List.append_nil _).symm
  monitor := by
    unfold handOver
    split
    · rfl
    · split <;> rfl

theorem rejectionsOf_single (d : Delivery ω) (policy : Backpressure) (s : Buffering ω) :
    rejectionsOf d [(policy, s)] = if findsFull d s then [(reap d s).buffer.rejection] else [] := by
  cases hfull : findsFull d s <;> simp [rejectionsOf, hfull]

theorem rejectionsOf_append (d : Delivery ω) (sendings more : List (Backpressure × Buffering ω)) :
    rejectionsOf d (sendings ++ more) = rejectionsOf d sendings ++ rejectionsOf d more := by
  simp [rejectionsOf]

theorem findsFull_iff {d : Delivery ω} {s : Buffering ω} :
    findsFull d s = true ↔ s.buffer.pending ≠ [] ∧
      (reap d s).buffer.limits.maxFlushes ≤ (reap d s).buffer.inFlight.length := by
  simp [findsFull]

/-- **A sending tells about a flush held back** if it finds the limit reached, and then once. -/
theorem rejects_sendPending (hs : s.buffer.InLimits) (policy : Backpressure) :
    s.Rejects (sendPending d.logged policy s).2 (rejectionsOf d.logged [(policy, s)]) := by
  have hreap : s.Rejects (reap d.logged s) [] := (steady_rejects d s).reap (.refl s)
  have hheld := hreap.trans (rejects_heldBack d (reap d.logged s))
  have hsends := sends_sendPending (d := d.logged) hs policy
  generalize sendPending d.logged policy s = sent at hsends
  rw [rejectionsOf_single]
  cases hsends with
  | nothing hnone =>
      rw [if_neg fun hfull => (findsFull_iff.1 hfull).1 hnone]
      exact .refl s
  | room _ hroom =>
      rw [if_neg fun hfull => Nat.not_le.2 hroom (findsFull_iff.1 hfull).2]
      exact hreap.trans (rejects_handOver d _)
  | wait hsome hfull =>
      rw [if_pos (findsFull_iff.2 ⟨hsome, Nat.le_of_eq hfull.symm⟩)]
      exact (hheld.trans (rejects_completeOldest d _)).trans (rejects_handOver d _)
  | giveUp hsome hfull =>
      rw [if_pos (findsFull_iff.2 ⟨hsome, Nat.le_of_eq hfull.symm⟩)]
      exact hheld

theorem rejects_add (hs : s.buffer.Measured limits) (row : Mutation) :
    s.Rejects (add d.logged s row).2 (rejectionsOf d.logged (s.attemptsOfAdd row)) := by
  unfold attemptsOfAdd
  cases hclosed : s.buffer.closed with
  | true =>
      rw [add_of_closed d.logged hclosed]
      exact .refl s
  | false =>
      rw [if_neg (by simp)]
      cases hfull : (s.buffer.enqueue row).isFull with
      | true =>
          have hsent := rejects_sendPending (d := d) (s := s.queued row)
            (hs.enqueue row).inLimits s.buffer.policy
          rw [add_of_full d.logged hclosed hfull, if_pos rfl]
          exact ⟨hsent.log, hsent.monitor⟩
      | false =>
          rw [add_of_room d.logged hclosed hfull, if_neg (by simp)]
          exact ⟨(Rejects.refl s).log, rfl⟩

theorem rejects_addAll (hs : s.buffer.Measured limits) (rows : List Mutation) :
    s.Rejects (addAll d.logged s rows).2 (rejectionsOf d.logged (attemptsOfAddAll d.logged s rows)) := by
  induction rows generalizing s with
  | nil => exact .refl s
  | cons row rest ih =>
      have hadd := rejects_add (d := d) hs row
      have hmeasured := (lasting_measured d.logged limits).add hs row
      rw [addAll, attemptsOfAddAll, rejectionsOf_append]
      cases hadded : add d.logged s row with
      | mk answer s' =>
          rw [hadded] at hadd hmeasured
          cases answer with
          | error e => exact hadd.trans (.refl s')
          | ok n => exact hadd.trans (ih hmeasured)

theorem rejections_bufferClosed (m : Monitor) : m.bufferClosed.rejections = m.rejections := by
  unfold Monitor.bufferClosed
  split <;> rfl

theorem rejects_close (hs : s.buffer.Measured limits) (hopen : s.buffer.closed = false) :
    s.Rejects (close d.logged s).2 (rejectionsOf d.logged [(.block, s.closing)]) := by
  have hsent := rejects_sendPending (d := d) (s := s.closing)
    ⟨hs.inLimits.flights, hs.inLimits.positive⟩ .block
  have hlast : s.Rejects (sendLast d.logged s.closing) (rejectionsOf d.logged [(.block, s.closing)]) := by
    unfold sendLast
    split
    · rename_i hfailed
      rw [hfailed] at hsent
      exact ⟨hsent.log, hsent.monitor⟩
    · rename_i hok
      rw [hok] at hsent
      exact ⟨hsent.log, hsent.monitor⟩
  have hleft := hlast.trans ((steady_rejects d _).completeAll (.refl _))
  rw [List.append_nil] at hleft
  rw [close_of_open d.logged hopen]
  exact ⟨hleft.log, (rejections_bufferClosed _).trans hleft.monitor⟩

/-- **Every event of an operation** is that of one sending. -/
theorem rejects_step (hs : s.buffer.Measured limits) (next : BufferStep) :
    s.Rejects (step d.logged s next).2 (rejectionsOf d.logged (attempts d.logged s next)) := by
  cases next with
  | close =>
      cases hclosed : s.buffer.closed with
      | true =>
          rw [attempts, if_pos hclosed, step, close, if_pos hclosed]
          exact .refl s
      | false =>
          rw [attempts, if_neg (by simp [hclosed])]
          exact rejects_close hs hclosed
  | call c =>
      cases c with
      | add row => exact rejects_add hs row
      | addAll rows => exact rejects_addAll hs rows
      | flush =>
          cases hclosed : s.buffer.closed with
          | true =>
              rw [attempts, if_pos hclosed]
              show s.Rejects (flush d.logged s).2 _
              rw [flush_of_closed d.logged hclosed]
              exact .refl s
          | false =>
              rw [attempts, if_neg (by simp [hclosed])]
              show s.Rejects (flush d.logged s).2 _
              rw [flush_of_open d.logged hclosed]
              exact rejects_sendPending hs.inLimits _
      | takeCompleted =>
          have hreap : s.Rejects (reap d.logged s) [] := (steady_rejects d s).reap (.refl s)
          exact ⟨hreap.log, hreap.monitor⟩

/-- Collecting flushes gives nothing to the hook or the writer. -/
theorem steady_sendings (d : Delivery ω) (n : Nat) : Steady d.logged fun s => s.log.sendings = n where
  completeOldest s hs := by
    unfold completeOldest
    split
    · exact hs
    · exact (List.countP_cons_of_neg (by simp [DeliveryCall.isSending])).trans hs
  asked _ _ hs := (List.countP_cons_of_neg (by simp [DeliveryCall.isSending])).trans hs

/-- **A sending that gives up** gives nothing to the hook or the writer. -/
theorem sendPending_reject (hs : s.buffer.Measured limits) (hfull : findsFull d.logged s = true) :
    (sendPending d.logged .reject s).1 = .error (.rejected s.buffer.destination
        limits.normalized.maxFlushes limits.normalized.maxFlushes) ∧
      (sendPending d.logged .reject s).2.log.sendings = s.log.sendings := by
  have hmeasured := (steady_measured d.logged limits).reap hs
  have hsendings := (steady_sendings d s.log.sendings).reap (s := s) rfl
  have hdestination : (reap d.logged s).buffer.destination = s.buffer.destination := by
    obtain ⟨results, hcollect⟩ := reap_collect d.logged s
    rw [hcollect]
    rfl
  obtain ⟨hsome, hle⟩ := findsFull_iff.1 hfull
  have hsends := sends_sendPending (d := d.logged) hs.inLimits .reject
  generalize sendPending d.logged .reject s = sent at hsends
  cases hsends with
  | nothing hnone => exact absurd hnone hsome
  | room _ hroom => exact absurd hroom (Nat.not_lt.2 hle)
  | giveUp _ heq =>
      refine ⟨?_, (List.countP_cons_of_neg (by simp [DeliveryCall.isSending])).trans hsendings⟩
      rw [heq, hdestination, hmeasured.limits]

end Rejections

end Buffering

end Multiversion
