import Multiversion.Proofs.Pipeline.Batching
import Multiversion.Proofs.Pipeline.Sending
import Multiversion.Proofs.Pipeline.Shifts

/-!
# Flushes in the order of submission

A buffer hands its flushes to the workers of a pool, which go on while the buffer is at work.  With one
worker, or with one flush in flight at a time, one job at most can run, and the rows of the buffer are
sent in the order in which they were submitted, whatever the workers' schedule.

* `Scheduled` — a workshop with a schedule of its workers, as the world of a buffer;
* `Buffering.taken` — the rows that operations have submitted;
* `Transport.RowByRow.InOrder` — a buffer and its workshop after some rows; every operation keeps this.

Main statement: `Transport.RowByRow.closed_inOrder` — the world when the buffer has been closed.
-/

namespace Multiversion

/-- A workshop with a schedule of its workers: before each answer that a buffer gets, they work off the
next shifts. -/
structure Scheduled (τ : Type) where
  workshop : Workshop τ
  bursts : List (List Workshop.Shift) := []

namespace Scheduled

variable {τ : Type}

/-- The workers work off the next shifts. -/
def proceed (t : Transport τ) (o : Scheduled τ) : Scheduled τ :=
  match o.bursts with
  | [] => o
  | burst :: rest => { workshop := o.workshop.shifts t burst, bursts := rest }

/-- An answer of the workshop, after the next shifts. -/
def ask {α : Type} (t : Transport τ) (o : Scheduled τ) (question : Workshop τ → α × Workshop τ) :
    α × Scheduled τ :=
  let (answer, workshop) := question (o.proceed t).workshop
  (answer, { o.proceed t with workshop })

/-- The workshop as the world of a buffer whose flushes are queued, while the workers go on. -/
def delivery (t : Transport τ) : Delivery (Scheduled τ) :=
  let d := Workshop.delivery t .pooled Hook.keep fun _ world => world
  { prepare := fun rows o =>
      let (answer, workshop) := d.prepare rows o.workshop
      (answer, { o with workshop })
    submit := fun txn rows o => o.ask t (d.submit txn rows)
    isDone := fun ticket o => o.ask t (d.isDone ticket)
    wait := fun ticket o => o.ask t (d.wait ticket)
    rejected := fun event o => { o with workshop := d.rejected event o.workshop } }

/-- Handing rows over to a workshop that takes them. -/
theorem handOver_eq {t : Transport τ} {b : Buffering (Scheduled τ)} {ticket : Ticket} {w : Workshop τ}
    (hsent : (b.world.proceed t).workshop.sendLater b.buffer.txn (b.buffer.pending.map (·.row)) =
      (.ok ticket, w)) :
    Buffering.handOver (delivery t) b = (.ok (), { b with
      buffer := b.buffer.launch (b.buffer.pending.map (·.seq)) ticket
      world := { b.world.proceed t with workshop := w } }) := by
  simp only [Buffering.handOver, delivery, Workshop.delivery, Hook.keep, ask, hsent]

end Scheduled

namespace Buffering

variable {ω : Type}

/-- The rows that operations have submitted: a list of rows is submitted up to the first error. -/
def taken (d : Delivery ω) (s : Buffering ω) : List BufferCall → List Mutation
  | [] => []
  | c :: rest =>
      let s' := (perform d s c).2
      c.submitted.take (s'.buffer.nextSeq - s.buffer.nextSeq) ++ taken d s' rest

end Buffering

namespace Transport.RowByRow

open Workshop (InTurn Proceeds)

variable {τ : Type} {t : Transport τ} {txn : View} (s : t.RowByRow txn)

/-- A buffer to which some rows have been submitted, and whose flushes are carried out in the order in
which they were handed over. -/
structure InOrder (rows : List Mutation) (b : Buffering (Scheduled τ)) : Prop where
  txn : b.buffer.txn = txn
  room : 0 < b.buffer.limits.maxFlushes
  shop : ∃ done, InTurn s b.buffer.limits.maxFlushes done b.world.workshop ∧
    (done ++ b.world.workshop.pool.jobs).flatMap FlushJob.rows ++ b.buffer.pending.map (·.row) = rows
  -- Every flush that has not been carried out is in flight.
  flights : ∀ j ∈ b.world.workshop.pool.jobs, ∃ f ∈ b.buffer.inFlight, f.ticket = j.ticket

variable {s} {rows : List Mutation} {b : Buffering (Scheduled τ)}

theorem proceeds_proceed {flushes : Nat} {done : List FlushJob} {o : Scheduled τ}
    (h : InTurn s flushes done o.workshop) :
    Proceeds s flushes done o.workshop (o.proceed t).workshop := by
  unfold Scheduled.proceed
  split
  · exact h.proceeds
  · exact h.shifts _

namespace InOrder

section

variable (h : s.InOrder rows b)
include h

/-- The workers carry out the oldest jobs. -/
theorem move {o : Scheduled τ}
    (ho : ∀ done, InTurn s b.buffer.limits.maxFlushes done b.world.workshop →
      Proceeds s b.buffer.limits.maxFlushes done b.world.workshop o.workshop) :
    s.InOrder rows { b with world := o } := by
  obtain ⟨done, hturn, hrows⟩ := h.shop
  obtain ⟨ended, hjobs, hturn'⟩ := ho done hturn
  refine { h with shop := ⟨done ++ ended, hturn', ?_⟩, flights := fun j hj => ?_ }
  · rw [hjobs, ← List.append_assoc] at hrows
    exact hrows
  · exact h.flights j (hjobs ▸ List.mem_append_right ended hj)

theorem proceed : s.InOrder rows { b with world := b.world.proceed t } :=
  h.move fun _ => proceeds_proceed

/-- Waiting for the oldest flush. -/
theorem completeOldest :
    s.InOrder rows (Buffering.completeOldest (Scheduled.delivery t) b) := by
  unfold Buffering.completeOldest
  split
  · exact h
  · rename_i flight rest hflight
    have hmoved := h.proceed
    let o := b.world.proceed t
    let shop := o.workshop.awaited t flight.ticket
    have hwait : (Scheduled.delivery t).wait flight.ticket b.world =
        ((shop.collect flight.ticket).1, { o with workshop := (shop.collect flight.ticket).2 }) := rfl
    obtain ⟨done, hturn, -⟩ := hmoved.shop
    have hgone := (hturn.awaited flight.ticket).2
    have hwaited : s.InOrder rows { b with world := { o with workshop := shop } } :=
      hmoved.move fun _ hturn => (hturn.awaited flight.ticket).1
    obtain ⟨done, hturn, hrows⟩ := hwaited.shop
    rw [hwait]
    refine { h with shop := ⟨done, hturn.collect flight.ticket, hrows⟩, flights := fun j hj => ?_ }
    obtain ⟨f, hf, hticket⟩ := hwaited.flights j hj
    rcases List.mem_cons.1 (hflight ▸ hf) with rfl | hf
    · exact absurd hticket (hgone j hj)
    · exact ⟨f, hf, hticket⟩

end

variable (s rows) in
/-- Flushes that end, and questions about them, leave the rows in order. -/
theorem steady : Buffering.Steady (Scheduled.delivery t) (s.InOrder rows) where
  completeOldest _ h := h.completeOldest
  asked _ _ h := h.proceed

/-- Making room waits for flushes until there is room, or gives up. -/
theorem makeRoomWithin (h : s.InOrder rows b) (policy : Backpressure) {fuel : Nat}
    (hfuel : b.buffer.inFlight.length < fuel) :
    let made := Buffering.makeRoomWithin (Scheduled.delivery t) policy fuel b
    s.InOrder rows made.2 ∧ (policy = .block → made.1 = .ok ()) ∧
      (made.1 = .ok () → made.2.buffer.inFlight.length < made.2.buffer.limits.maxFlushes) := by
  induction fuel generalizing b with
  | zero => exact absurd hfuel (Nat.not_lt_zero _)
  | succ fuel ih =>
      unfold Buffering.makeRoomWithin
      split
      · rename_i hroom
        exact ⟨h, fun _ => rfl, fun _ => hroom⟩
      · rename_i hfull
        let told : Buffering (Scheduled τ) := { b with
          monitor := b.monitor.flushRejected
          world := (Scheduled.delivery t).rejected b.buffer.rejection b.world }
        have htold : s.InOrder rows told := { h with }
        cases policy with
        | block =>
            refine ih htold.completeOldest ?_
            have hwaited := (Buffering.completeAllWithin_spec (d := Scheduled.delivery t) (s := told) 1).2.1
            change (Buffering.completeOldest (Scheduled.delivery t) told).buffer.inFlight = _ at hwaited
            have hroom := h.room
            rw [hwaited, List.length_drop]
            show b.buffer.inFlight.length - 1 < fuel
            omega
        | reject => exact ⟨htold, by simp, by simp⟩

/-- Handing pending rows over queues them behind all others. -/
theorem handOver (h : s.InOrder rows b)
    (hroom : b.buffer.inFlight.length < b.buffer.limits.maxFlushes) :
    (Buffering.handOver (Scheduled.delivery t) b).1 = .ok () ∧
      s.InOrder rows (Buffering.handOver (Scheduled.delivery t) b).2 := by
  have hmoved := h.proceed
  obtain ⟨done, hturn, hrows⟩ := hmoved.shop
  -- If one flush only is kept in flight, none is now, and so no job is left.
  have hfree : b.buffer.limits.maxFlushes ≤ 1 → (b.world.proceed t).workshop.pool.jobs = [] := by
    intro hone
    have hnone : b.buffer.inFlight = [] := List.eq_nil_of_length_eq_zero (by omega)
    refine List.eq_nil_iff_forall_not_mem.2 fun j hj => ?_
    obtain ⟨f, hf, -⟩ := hmoved.flights j hj
    change f ∈ b.buffer.inFlight at hf
    simp [hnone] at hf
  obtain ⟨hok, hjobs, hsent⟩ := hturn.sendLater (b.buffer.pending.map (·.row)) hfree
  have htaken : ((b.world.proceed t).workshop.sendLater b.buffer.txn (b.buffer.pending.map (·.row))).1 =
      .ok (b.world.proceed t).workshop.nextTicket := by
    rw [h.txn, hok]
  rw [Scheduled.handOver_eq (Prod.ext htaken rfl), h.txn]
  refine ⟨rfl, { h with shop := ⟨done, hsent, ?_⟩, flights := fun j hj => ?_ }⟩
  · rw [hjobs, ← List.append_assoc, List.flatMap_append, List.flatMap_singleton]
    exact (List.append_nil _).trans hrows
  · rcases List.mem_append.1 (hjobs ▸ hj) with hj | hj
    · obtain ⟨f, hf, hticket⟩ := hmoved.flights j hj
      exact ⟨f, List.mem_append_left _ hf, hticket⟩
    · rw [List.mem_singleton.1 hj]
      exact ⟨_, List.mem_append_right _ (List.mem_singleton.2 rfl), rfl⟩

theorem makeRoom (h : s.InOrder rows b) (policy : Backpressure) :
    s.InOrder rows (Buffering.makeRoom (Scheduled.delivery t) policy b).2 ∧
      (policy = .block → (Buffering.makeRoom (Scheduled.delivery t) policy b).1 = .ok ()) ∧
      ((Buffering.makeRoom (Scheduled.delivery t) policy b).1 = .ok () →
        (Buffering.makeRoom (Scheduled.delivery t) policy b).2.buffer.inFlight.length <
          (Buffering.makeRoom (Scheduled.delivery t) policy b).2.buffer.limits.maxFlushes) :=
  h.makeRoomWithin policy (Nat.lt_succ_self _)

/-- Sending fails only if the policy gives up, and leaves the rows pending then. -/
theorem sendPending (h : s.InOrder rows b) (policy : Backpressure) :
    s.InOrder rows (Buffering.sendPending (Scheduled.delivery t) policy b).2 ∧
      (policy = .block → (Buffering.sendPending (Scheduled.delivery t) policy b).1 = .ok ()) := by
  unfold Buffering.sendPending
  split
  · exact ⟨h, fun _ => rfl⟩
  · have hreaped := (steady s rows).reap h
    obtain ⟨hmade, hblock, hroom⟩ := hreaped.makeRoom policy
    split
    · rename_i e b' hfailed
      rw [hfailed] at hmade hblock
      exact ⟨hmade, hblock⟩
    · rename_i b' hok
      rw [hok] at hmade hroom
      obtain ⟨hanswer, hsent⟩ := hmade.handOver (hroom rfl)
      exact ⟨hsent, fun _ => hanswer⟩

theorem flush (h : s.InOrder rows b) :
    s.InOrder rows (Buffering.flush (Scheduled.delivery t) b).2 := by
  unfold Buffering.flush
  split
  · exact h
  · exact (h.sendPending _).1

theorem enqueue (h : s.InOrder rows b) (row : Mutation) :
    s.InOrder (rows ++ [row]) { b with buffer := b.buffer.enqueue row } := by
  obtain ⟨done, hturn, hrows⟩ := h.shop
  refine { h with shop := ⟨done, hturn, ?_⟩ }
  rw [← hrows, List.append_assoc]
  exact congrArg _ List.map_append

/-- A row that is submitted comes after all others, whether or not a flush that it causes is given up. -/
theorem add (h : s.InOrder rows b) (hopen : b.buffer.closed = false) (row : Mutation) :
    s.InOrder (rows ++ [row]) (Buffering.add (Scheduled.delivery t) b row).2 := by
  have hqueued := h.enqueue row
  unfold Buffering.add
  rw [if_neg (by simp [hopen])]
  dsimp only
  split
  · have hflushed := hqueued.flush
    split
    · rename_i hfailed
      rwa [hfailed] at hflushed
    · rename_i hok
      rwa [hok] at hflushed
  · exact hqueued

/-- Of a list of rows the first ones are submitted, up to one whose flush is given up. -/
theorem addAll (h : s.InOrder rows b) (hopen : b.buffer.closed = false) (more : List Mutation) :
    ∃ count, (Buffering.addAll (Scheduled.delivery t) b more).2.buffer.nextSeq =
        b.buffer.nextSeq + count ∧
      (Buffering.addAll (Scheduled.delivery t) b more).2.buffer.closed = false ∧
      s.InOrder (rows ++ more.take count) (Buffering.addAll (Scheduled.delivery t) b more).2 := by
  induction more generalizing rows b with
  | nil => exact ⟨0, rfl, hopen, by simpa [Buffering.addAll] using h⟩
  | cons row rest ih =>
      have hadded := h.add hopen row
      obtain ⟨hadvances, -⟩ := Buffering.advances_add (Scheduled.delivery t) b hopen row
      have hnext : (Buffering.add (Scheduled.delivery t) b row).2.buffer.nextSeq = b.buffer.nextSeq + 1 :=
        hadvances.nextSeq_eq
      have hopen' : (Buffering.add (Scheduled.delivery t) b row).2.buffer.closed = false :=
        hadvances.closed_eq.trans hopen
      unfold Buffering.addAll
      split
      · rename_i hfailed
        rw [hfailed] at hadded hnext hopen'
        exact ⟨1, hnext, hopen', hadded⟩
      · rename_i hok
        rw [hok] at hadded hnext hopen'
        obtain ⟨count, hcount, hclosed, hrest⟩ := ih hadded hopen'
        refine ⟨count + 1, ?_, hclosed, ?_⟩
        · have hsum : b.buffer.nextSeq + 1 + count = b.buffer.nextSeq + (count + 1) := by omega
          exact hcount.trans ((congrArg (· + count) hnext).trans hsum)
        · rwa [List.take_succ_cons, List.append_cons]

theorem drain (h : s.InOrder rows b) : s.InOrder rows (Buffering.drain b).2 := { h with }

/-- **One operation** submits some rows, which come after all others. -/
theorem perform (h : s.InOrder rows b) (hopen : b.buffer.closed = false) (c : BufferCall) :
    let performed := (Buffering.perform (Scheduled.delivery t) b c).2
    s.InOrder (rows ++ c.submitted.take (performed.buffer.nextSeq - b.buffer.nextSeq)) performed ∧
      performed.buffer.closed = false := by
  cases c with
  | add row =>
      obtain ⟨hadvances, -⟩ := Buffering.advances_add (Scheduled.delivery t) b hopen row
      have hnext : (Buffering.add (Scheduled.delivery t) b row).2.buffer.nextSeq = b.buffer.nextSeq + 1 :=
        hadvances.nextSeq_eq
      simp only [Buffering.perform, BufferCall.submitted, hnext, Nat.add_sub_cancel_left]
      exact ⟨h.add hopen row, hadvances.closed_eq.trans hopen⟩
  | addAll more =>
      obtain ⟨count, hcount, hclosed, hadded⟩ := h.addAll hopen more
      simp only [Buffering.perform, BufferCall.submitted, hcount, Nat.add_sub_cancel_left]
      exact ⟨hadded, hclosed⟩
  | flush =>
      simp only [Buffering.perform, BufferCall.submitted, List.take_nil, List.append_nil]
      exact ⟨h.flush, (Buffering.advances_flush (Scheduled.delivery t) b).closed_eq.trans hopen⟩
  | takeCompleted =>
      have hreaped := (steady s rows).reap h
      simp only [Buffering.perform, BufferCall.submitted, List.take_nil, List.append_nil]
      exact ⟨hreaped.drain, (Buffering.advances_reap (Scheduled.delivery t) b).closed_eq.trans hopen⟩

/-- **A list of operations** does the same, by induction. -/
theorem runCalls (h : s.InOrder rows b) (hopen : b.buffer.closed = false) (calls : List BufferCall) :
    s.InOrder (rows ++ Buffering.taken (Scheduled.delivery t) b calls)
        (Buffering.runCalls (Scheduled.delivery t) b calls).2 ∧
      (Buffering.runCalls (Scheduled.delivery t) b calls).2.buffer.closed = false := by
  induction calls generalizing rows b with
  | nil =>
      rw [Buffering.taken, List.append_nil]
      exact ⟨h, hopen⟩
  | cons c rest ih =>
      obtain ⟨hperformed, hopen'⟩ := h.perform hopen c
      rw [Buffering.taken, ← List.append_assoc]
      exact ih hperformed hopen'

/-- **Closing** carries out all rows, in the order in which they were submitted. -/
theorem close (h : s.InOrder rows b) (hopen : b.buffer.closed = false) :
    (Buffering.close (Scheduled.delivery t) b).2.world.workshop.world = s.after rows := by
  have hclosing : s.InOrder rows { b with buffer := { b.buffer with closed := true } } := { h with }
  obtain ⟨hsent, hok⟩ := hclosing.sendPending .block
  obtain ⟨-, hnone⟩ := Buffering.advances_sendPending (Scheduled.delivery t)
    { b with buffer := { b.buffer with closed := true } } .block
  have hlast : Buffering.sendLast (Scheduled.delivery t)
      { b with buffer := { b.buffer with closed := true } } =
      (Buffering.sendPending (Scheduled.delivery t) .block
        { b with buffer := { b.buffer with closed := true } }).2 := by
    unfold Buffering.sendLast
    split
    · rename_i hfailed
      simp [hfailed] at hok
    · rename_i hsending
      rw [hsending]
  rw [Buffering.close_of_open _ hopen, hlast]
  generalize (Buffering.sendPending (Scheduled.delivery t) .block
    { b with buffer := { b.buffer with closed := true } }) = sending at hsent hok hnone
  obtain ⟨-, hflights, hkept⟩ := Buffering.completeAllWithin_spec (d := Scheduled.delivery t)
    (s := sending.2) sending.2.buffer.inFlight.length
  have hall := (steady s rows).completeAllWithin sending.2.buffer.inFlight.length hsent
  obtain ⟨done, hturn, hrows⟩ := hall.shop
  have hjobs : (Buffering.completeAllWithin (Scheduled.delivery t) sending.2.buffer.inFlight.length
      sending.2).world.workshop.pool.jobs = [] := by
    refine List.eq_nil_iff_forall_not_mem.2 fun j hj => ?_
    obtain ⟨f, hf, -⟩ := hall.flights j hj
    simp [hflights] at hf
  rw [hjobs, hkept, hnone (hok rfl), List.map_nil, List.append_nil, List.append_nil] at hrows
  rw [← hrows]
  exact hturn.world

/-- A buffer that has just been opened on a workshop without jobs. -/
theorem opening (s : t.RowByRow txn) (destination : String) {limits : BufferLimits}
    (policy : Backpressure) (monitor : Monitor) (maxRetries : Nat) {workers : Nat}
    (halone : workers ≤ 1 ∨ limits.maxFlushes ≤ 1) {world : τ} (hworld : world = s.after [])
    (bursts : List (List Workshop.Shift)) :
    let opened := CallBuffer.opening destination txn limits policy monitor
    let workshop : Workshop τ := { maxRetries, world, pool := .ofLimit workers }
    s.InOrder [] ⟨opened.1, opened.2, { workshop, bursts }⟩ where
  txn := rfl
  room := Nat.lt_of_lt_of_le Nat.zero_lt_one (Nat.le_max_right _ _)
  shop := by
    have hnormalized : workers ≤ 1 ∨ limits.normalized.maxFlushes ≤ 1 :=
      halone.imp_right fun hone => Nat.max_le.2 ⟨hone, Nat.le_refl 1⟩
    exact ⟨[], .opening s hnormalized maxRetries hworld, rfl⟩
  flights _ hj := absurd hj List.not_mem_nil

end InOrder

/-- **Flushes that cannot overtake each other**: with one worker, or one flush in flight, the world is in the
end the one after all rows that were submitted, in their order. -/
theorem closed_inOrder (s : t.RowByRow txn) (destination : String) {limits : BufferLimits}
    (policy : Backpressure) (monitor : Monitor) (maxRetries : Nat) {workers : Nat}
    (halone : workers ≤ 1 ∨ limits.maxFlushes ≤ 1) {world : τ} (hworld : world = s.after [])
    (calls : List BufferCall) (bursts : List (List Workshop.Shift)) :
    let opened := CallBuffer.opening destination txn limits policy monitor
    let workshop : Workshop τ := { maxRetries, world, pool := .ofLimit workers }
    let start : Buffering (Scheduled τ) := ⟨opened.1, opened.2, { workshop, bursts }⟩
    (Buffering.close (Scheduled.delivery t)
      (Buffering.runCalls (Scheduled.delivery t) start calls).2).2.world.workshop.world =
        s.after (Buffering.taken (Scheduled.delivery t) start calls) := by
  intro opened workshop start
  have hopening : s.InOrder [] start :=
    .opening s destination policy monitor maxRetries halone hworld bursts
  obtain ⟨hran, hopen⟩ := hopening.runCalls rfl calls
  exact hran.close hopen

end Transport.RowByRow

end Multiversion
