import Multiversion.Proofs.Pipeline.Sending

/-!
# The log of a buffer's dealings with the outside world

A buffer calls its hook, its writer and whoever is told about flushes held back.  These calls are logged
with their answers, which changes nothing about them.

* `Delivery.logged` — the same outside world, with a log;
* `DeliveryLog.handovers`, `results`, `rejections` — what the log says about flushes;
* `Buffering.forget` — a buffer without the log.

Main statements: `Buffering.forget_runCalls`, `Buffering.forget_close` — a buffer over a logged world
does what it does over the world itself.
-/

namespace Multiversion

/-- A call of a buffer on the outside world, with its answer. -/
inductive DeliveryCall where
  | prepare (batch : List PendingRow) (answer : Except PipelineError (List PendingRow))
  | submit (txn : View) (rows : List Mutation) (answer : Except PipelineError Ticket)
  | isDone (ticket : Ticket) (answer : Bool)
  | wait (ticket : Ticket) (answer : FlushResult)
  | rejected (event : RejectionEvent)

namespace DeliveryCall

/-- The result of a flush that was waited for. -/
def result? : DeliveryCall → Option (Ticket × FlushResult)
  | wait ticket result => some (ticket, result)
  | _ => none

/-- The event of a flush held back. -/
def rejection? : DeliveryCall → Option RejectionEvent
  | rejected event => some event
  | _ => none

/-- Whether the hook or the writer was given rows. -/
def isSending : DeliveryCall → Bool
  | prepare .. | submit .. => true
  | _ => false

end DeliveryCall

/-- The calls so far, the latest one first. -/
abbrev DeliveryLog := List DeliveryCall

/-- A batch that the hook has changed, and whose rows the writer has then taken. -/
structure Handover where
  batch : List PendingRow
  produced : List PendingRow
  ticket : Ticket

namespace DeliveryLog

/-- The batches that were taken, in order. -/
def handovers : DeliveryLog → List Handover
  | [] => []
  | call :: earlier =>
      match call, earlier with
      | .submit _ rows (.ok ticket), .prepare batch (.ok produced) :: _ =>
          if rows = produced.map (·.row) then handovers earlier ++ [⟨batch, produced, ticket⟩]
          else handovers earlier
      | _, _ => handovers earlier

/-- The results of the flushes that were waited for, in order. -/
def results (log : DeliveryLog) : List (Ticket × FlushResult) :=
  log.reverse.filterMap DeliveryCall.result?

/-- The events of flushes held back, in order. -/
def rejections (log : DeliveryLog) : List RejectionEvent :=
  log.reverse.filterMap DeliveryCall.rejection?

/-- How often the hook or the writer was given rows. -/
def sendings (log : DeliveryLog) : Nat := log.countP DeliveryCall.isSending

theorem results_cons (call : DeliveryCall) (log : DeliveryLog) :
    results (call :: log) = log.results ++ call.result?.toList := by
  cases h : call.result? <;> simp [results, h]

theorem results_cons_none {call : DeliveryCall} {log : DeliveryLog} (h : call.result? = none) :
    results (call :: log) = log.results := by
  rw [results_cons, h]
  exact List.append_nil _

theorem rejections_cons (call : DeliveryCall) (log : DeliveryLog) :
    rejections (call :: log) = log.rejections ++ call.rejection?.toList := by
  cases h : call.rejection? <;> simp [rejections, h]

theorem rejections_cons_none {call : DeliveryCall} {log : DeliveryLog} (h : call.rejection? = none) :
    rejections (call :: log) = log.rejections := by
  rw [rejections_cons, h]
  exact List.append_nil _

end DeliveryLog

/-- Asks the outside world, and logs the call with the answer. -/
def DeliveryLog.noting {ω α : Type} (ask : ω → α × ω) (call : α → DeliveryCall) (w : ω × DeliveryLog) :
    α × ω × DeliveryLog :=
  let (answer, world) := ask w.1
  (answer, world, call answer :: w.2)

theorem DeliveryLog.noting_eq {ω α : Type} {ask : ω → α × ω} {call : α → DeliveryCall}
    {w : ω × DeliveryLog} {answer : α} {world : ω} (h : ask w.1 = (answer, world)) :
    noting ask call w = (answer, world, call answer :: w.2) := by
  rw [noting, h]

/-- The same outside world, with a log. -/
def Delivery.logged {ω : Type} (d : Delivery ω) : Delivery (ω × DeliveryLog) where
  prepare rows := DeliveryLog.noting (d.prepare rows) (.prepare rows)
  submit txn rows := DeliveryLog.noting (d.submit txn rows) (.submit txn rows)
  isDone ticket := DeliveryLog.noting (d.isDone ticket) (.isDone ticket)
  wait ticket := DeliveryLog.noting (d.wait ticket) (.wait ticket)
  rejected event w := (d.rejected event w.1, .rejected event :: w.2)

namespace Buffering

variable {ω : Type} (d : Delivery ω) (s : Buffering (ω × DeliveryLog))

/-- A buffer without the log of its world. -/
def forget (s : Buffering (ω × DeliveryLog)) : Buffering ω where
  buffer := s.buffer
  monitor := s.monitor
  world := s.world.1

/-- The log of a buffer. -/
def log (s : Buffering (ω × DeliveryLog)) : DeliveryLog := s.world.2

@[simp] theorem buffer_forget : s.forget.buffer = s.buffer := rfl

theorem forget_completeOldest :
    (completeOldest d.logged s).forget = completeOldest d s.forget := by
  cases hflights : s.buffer.inFlight with
  | nil => simp only [completeOldest, buffer_forget, hflights]
  | cons flight rest =>
      simp only [completeOldest, buffer_forget, hflights]
      rfl

theorem forget_reapWithin (fuel : Nat) :
    (reapWithin d.logged fuel s).forget = reapWithin d fuel s.forget := by
  induction fuel generalizing s with
  | zero => rfl
  | succ fuel ih =>
      cases hflights : s.buffer.inFlight with
      | nil => simp only [reapWithin, buffer_forget, hflights]
      | cons flight rest =>
          cases hdone : d.isDone flight.ticket s.forget.world with
          | mk done world =>
              have hlogged : d.logged.isDone flight.ticket s.world = (done, world, _) :=
                DeliveryLog.noting_eq hdone
              simp only [reapWithin, buffer_forget, hflights, hdone, hlogged]
              cases done with
              | false => rfl
              | true => exact (ih _).trans (congrArg _ (forget_completeOldest d _))

theorem forget_reap : (reap d.logged s).forget = reap d s.forget := forget_reapWithin d s _

theorem forget_makeRoomWithin (policy : Backpressure) (fuel : Nat) :
    (makeRoomWithin d.logged policy fuel s).map id forget = makeRoomWithin d policy fuel s.forget := by
  induction fuel generalizing s with
  | zero => rfl
  | succ fuel ih =>
      by_cases hroom : s.forget.buffer.inFlight.length < s.forget.buffer.limits.maxFlushes
      · rw [makeRoomWithin, makeRoomWithin, if_pos hroom, if_pos (by exact hroom)]
        rfl
      · rw [makeRoomWithin, makeRoomWithin, if_neg hroom, if_neg (by exact hroom)]
        cases policy with
        | block => exact (ih _).trans (congrArg _ (forget_completeOldest d _))
        | reject => rfl

theorem forget_handOver : (handOver d.logged s).map id forget = handOver d s.forget := by
  cases hprepare : d.prepare s.buffer.pending s.forget.world with
  | mk answer world =>
      have hlogged : d.logged.prepare s.buffer.pending s.world = (answer, world, _) :=
        DeliveryLog.noting_eq hprepare
      simp only [handOver, buffer_forget, hprepare, hlogged]
      cases answer with
      | error e => rfl
      | ok rows =>
          cases hsubmit : d.submit s.buffer.txn (rows.map (·.row)) world with
          | mk answer world' =>
              have hlogged' : d.logged.submit s.buffer.txn (rows.map (·.row))
                  (world, .prepare s.buffer.pending (.ok rows) :: s.world.2) = (answer, world', _) :=
                DeliveryLog.noting_eq hsubmit
              simp only [hsubmit, hlogged']
              cases answer <;> rfl

/-- **What the log says after a hand-over**: a batch was taken, or nothing has changed. -/
theorem log_handOver :
    (handOver d.logged s).2.log.results = s.log.results ∧
      (handOver d.logged s).2.log.rejections = s.log.rejections ∧
      ((∃ e, (handOver d.logged s).1 = .error e ∧ (handOver d.logged s).2.buffer = s.buffer ∧
          (handOver d.logged s).2.log.handovers = s.log.handovers) ∨
        ∃ rows ticket, (handOver d.logged s).1 = .ok () ∧
          (handOver d.logged s).2.buffer = s.buffer.launch (rows.map (·.seq)) ticket ∧
          (handOver d.logged s).2.log.handovers =
            s.log.handovers ++ [⟨s.buffer.pending, rows, ticket⟩]) := by
  cases hprepare : d.prepare s.buffer.pending s.world.1 with
  | mk answer world =>
      have hlogged : d.logged.prepare s.buffer.pending s.world = (answer, world, _) :=
        DeliveryLog.noting_eq hprepare
      cases answer with
      | error e =>
          rw [handOver, hlogged]
          exact ⟨DeliveryLog.results_cons_none rfl, DeliveryLog.rejections_cons_none rfl,
            .inl ⟨e, rfl, rfl, rfl⟩⟩
      | ok rows =>
          cases hsubmit : d.submit s.buffer.txn (rows.map (·.row)) world with
          | mk answer world' =>
              have hlogged' : d.logged.submit s.buffer.txn (rows.map (·.row))
                  (world, .prepare s.buffer.pending (.ok rows) :: s.world.2) = (answer, world', _) :=
                DeliveryLog.noting_eq hsubmit
              have hresults : DeliveryLog.results (.submit s.buffer.txn (rows.map (·.row)) answer ::
                  .prepare s.buffer.pending (.ok rows) :: s.world.2) = s.log.results :=
                (DeliveryLog.results_cons_none rfl).trans (DeliveryLog.results_cons_none rfl)
              have hrejections : DeliveryLog.rejections (.submit s.buffer.txn (rows.map (·.row)) answer ::
                  .prepare s.buffer.pending (.ok rows) :: s.world.2) = s.log.rejections :=
                (DeliveryLog.rejections_cons_none rfl).trans (DeliveryLog.rejections_cons_none rfl)
              rw [handOver, hlogged]
              dsimp only
              rw [hlogged']
              cases answer with
              | error e => exact ⟨hresults, hrejections, .inl ⟨e, rfl, rfl, rfl⟩⟩
              | ok ticket => exact ⟨hresults, hrejections, .inr ⟨rows, ticket, rfl, rfl, if_pos rfl⟩⟩

theorem forget_sendPending (policy : Backpressure) :
    (sendPending d.logged policy s).map id forget = sendPending d policy s.forget := by
  have hroom : (makeRoom d.logged policy (reap d.logged s)).map id forget =
      makeRoom d policy (reap d s.forget) :=
    (forget_makeRoomWithin d _ policy _).trans (congrArg (makeRoom d policy) (forget_reap d s))
  by_cases hnone : s.forget.buffer.pending.isEmpty
  · rw [sendPending, sendPending, if_pos hnone, if_pos (by exact hnone)]
    rfl
  · rw [sendPending, sendPending, if_neg hnone, if_neg (by exact hnone), ← hroom]
    cases makeRoom d.logged policy (reap d.logged s) with
    | mk answer s' =>
        cases answer with
        | error e => rfl
        | ok => exact forget_handOver d s'

theorem forget_flush : (flush d.logged s).map id forget = flush d s.forget := by
  cases hclosed : s.buffer.closed with
  | true =>
      rw [flush_of_closed d.logged hclosed, flush_of_closed d (s := s.forget) hclosed]
      rfl
  | false =>
      rw [flush_of_open d.logged hclosed, flush_of_open d (s := s.forget) hclosed]
      exact forget_sendPending d s _

theorem forget_add (row : Mutation) : (add d.logged s row).map id forget = add d s.forget row := by
  cases hclosed : s.buffer.closed with
  | true =>
      rw [add_of_closed d.logged hclosed, add_of_closed d (s := s.forget) hclosed]
      rfl
  | false =>
      cases hfull : (s.buffer.enqueue row).isFull with
      | true =>
          rw [add_of_full d.logged hclosed hfull, add_of_full d (s := s.forget) hclosed hfull]
          exact congrArg (Prod.map (Except.map fun _ => s.buffer.nextSeq) id)
            (forget_sendPending d (s.queued row) s.buffer.policy)
      | false =>
          rw [add_of_room d.logged hclosed hfull, add_of_room d (s := s.forget) hclosed hfull]
          rfl

theorem forget_addAll (rows : List Mutation) :
    (addAll d.logged s rows).map id forget = addAll d s.forget rows := by
  induction rows generalizing s with
  | nil => rfl
  | cons row rest ih =>
      rw [addAll, addAll, ← forget_add]
      cases add d.logged s row with
      | mk answer s' =>
          cases answer with
          | error e => rfl
          | ok n => exact ih s'

theorem forget_perform (c : BufferCall) :
    (perform d.logged s c).map id forget = perform d s.forget c := by
  cases c with
  | add row => exact Prod.ext rfl (congrArg (·.2) (forget_add d s row))
  | addAll rows => exact Prod.ext rfl (congrArg (·.2) (forget_addAll d s rows))
  | flush => exact Prod.ext rfl (congrArg (·.2) (forget_flush d s))
  | takeCompleted =>
      rw [perform, perform, takeCompleted, takeCompleted, ← forget_reap]
      rfl

/-- **A log shows what a buffer does, and changes nothing about it.** -/
theorem forget_runCalls (calls : List BufferCall) :
    (runCalls d.logged s calls).map id forget = runCalls d s.forget calls := by
  induction calls generalizing s with
  | nil => rfl
  | cons c rest ih =>
      rw [runCalls, runCalls, ← forget_perform]
      cases perform d.logged s c with
      | mk rows s' =>
          show _ = (rows ++ (runCalls d s'.forget rest).1, (runCalls d s'.forget rest).2)
          rw [← ih]
          rfl

theorem forget_completeAllWithin (fuel : Nat) :
    (completeAllWithin d.logged fuel s).forget = completeAllWithin d fuel s.forget := by
  induction fuel generalizing s with
  | zero => rfl
  | succ fuel ih => exact (ih _).trans (congrArg _ (forget_completeOldest d s))

theorem forget_completeAll : (completeAll d.logged s).forget = completeAll d s.forget :=
  forget_completeAllWithin d s _

theorem forget_sendLast : (sendLast d.logged s).forget = sendLast d s.forget := by
  rw [sendLast, sendLast, ← forget_sendPending]
  cases sendPending d.logged .block s with
  | mk answer s' => cases answer <;> rfl

theorem forget_close : (close d.logged s).map id forget = close d s.forget := by
  cases hclosed : s.buffer.closed with
  | true =>
      rw [close, close, if_pos hclosed, if_pos (by exact hclosed)]
      rfl
  | false =>
      have hleft : (completeAll d.logged (sendLast d.logged s.closing)).forget =
          completeAll d (sendLast d s.forget.closing) :=
        (forget_completeAll d _).trans (congrArg (completeAll d) (forget_sendLast d s.closing))
      rw [close_of_open d.logged hclosed, close_of_open d (s := s.forget) hclosed]
      exact congrArg
        (fun left : Buffering ω => drain { left with monitor := left.monitor.bufferClosed }) hleft

end Buffering

end Multiversion
