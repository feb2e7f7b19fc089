import Multiversion.Proofs.Pipeline.FlushOrder

/-!
# Flushes that overtake each other

Two flushes of a buffer that are in flight at the same time are jobs of their own, and nothing ties their
rows to the order in which they were handed over.  As soon as there are two workers and two flushes in
flight, the second one may be written first.

* `Transport.RowByRow.closed_race` — a schedule on which that happens, over any transport;
* `Transport.traced` — a transport that remembers which mutations of each row it has applied;
* `ScheduledRun` — a buffer over a cluster, with the schedule of its workers;
* `KeepsOrder` — the rows of a buffer are applied in the order in which they were submitted.

Main statement: `keepsOrder_iff` — for which limits and which number of workers this is so.
-/

namespace Multiversion

namespace Buffering

variable {ω : Type}

/-- A row is submitted to an open buffer, whether or not a flush that it causes fails. -/
theorem taken_add (d : Delivery ω) {s : Buffering ω} (hopen : s.buffer.closed = false) (m : Mutation)
    (rest : List BufferCall) :
    taken d s (.add m :: rest) = m :: taken d (perform d s (.add m)).2 rest := by
  have hnext : (perform d s (.add m)).2.buffer.nextSeq = s.buffer.nextSeq + 1 :=
    (advances_add d s hopen m).1.nextSeq_eq
  rw [taken, hnext, Nat.add_sub_cancel_left]
  rfl

theorem taken_flush (d : Delivery ω) (s : Buffering ω) (rest : List BufferCall) :
    taken d s (.flush :: rest) = taken d (perform d s .flush).2 rest := by
  rw [taken, BufferCall.submitted, List.take_nil, List.nil_append]

/-- Nothing is collected while the oldest flush has not ended. -/
theorem reap_of_waiting {d : Delivery ω} {s : Buffering ω} {flight : Flight} {rest : List Flight}
    {world : ω} (hflights : s.buffer.inFlight = flight :: rest)
    (hwaiting : d.isDone flight.ticket s.world = (false, world)) : reap d s = { s with world } := by
  rw [reap, hflights, List.length_cons, reapWithin]
  simp only [hflights, hwaiting]

/-- With room for a flush, pending rows are handed over. -/
theorem sendPending_of_room {d : Delivery ω} {s : Buffering ω} (policy : Backpressure)
    (hpending : s.buffer.pending.isEmpty = false)
    (hroom : (reap d s).buffer.inFlight.length < (reap d s).buffer.limits.maxFlushes) :
    sendPending d policy s = handOver d (reap d s) := by
  rw [sendPending, if_neg (by simp [hpending]), makeRoom, makeRoomWithin, if_pos hroom]

/-- A row that is submitted and then sent: it makes no difference whether it fills the buffer. -/
theorem perform_add_flush {d : Delivery ω} {s s' : Buffering ω} (hopen : s.buffer.closed = false)
    (m : Mutation) (hsent : sendPending d s.buffer.policy { s with buffer := s.buffer.enqueue m } =
      (.ok (), s')) :
    (perform d (perform d s (.add m)).2 .flush).2 = s' ∧ s'.buffer.closed = false := by
  obtain ⟨hadvances, hnone⟩ := advances_sendPending d { s with buffer := s.buffer.enqueue m }
    s.buffer.policy
  rw [hsent] at hadvances hnone
  have hopen' : s'.buffer.closed = false := hadvances.closed_eq.trans hopen
  have hflush : flush d { s with buffer := s.buffer.enqueue m } = (.ok (), s') := by
    rw [flush, if_neg (by simp [CallBuffer.enqueue, hopen])]
    exact hsent
  have hagain : flush d s' = (.ok (), s') := by
    rw [flush, if_neg (by simp [hopen']), sendPending, if_pos (List.isEmpty_iff.2 (hnone rfl))]
  refine ⟨?_, hopen'⟩
  simp only [perform, add, hopen, Bool.false_eq_true, if_false, hflush]
  split
  · rw [hagain]
  · rw [hflush]

end Buffering

namespace Transport.RowByRow

variable {τ : Type} {t : Transport τ} {txn : View}

section

variable (s : t.RowByRow txn) (limits : BufferLimits) (workers limit maxRetries : Nat)
  (m₁ m₂ : Mutation)

/-- A workshop with a flush that waits for its first worker. -/
def oneQueued : Workshop τ :=
  { maxRetries, world := s.after [], nextTicket := 1,
    pool := { limit, queue := [⟨0, txn, [m₁]⟩], starting := 1 } }

/-- A workshop with a flush that runs. -/
def firstRuns : Workshop τ :=
  { maxRetries, world := s.after [], nextTicket := 1, pool := { limit, running := [⟨0, txn, [m₁]⟩] } }

/-- A workshop with a flush that runs, and another one that waits for a second worker. -/
def bothUnderway : Workshop τ :=
  { maxRetries, world := s.after [], nextTicket := 2,
    pool := { limit, running := [⟨0, txn, [m₁]⟩], queue := [⟨1, txn, [m₂]⟩], starting := 1 } }

/-- A workshop in which the second flush has ended first. -/
def overtaken (stats : WriterStats) (result : FlushResult) : Workshop τ :=
  { maxRetries, world := s.after [m₂], nextTicket := 2, pooledStats := stats,
    results := [(1, result)], pool := { limit, running := [⟨0, txn, [m₁]⟩], starting := 1 } }

/-- A buffer over a schedule on which a second worker is faster than the first one. -/
def raceStart : Buffering (Scheduled τ) :=
  { buffer := (CallBuffer.opening "table" txn limits .block {}).1
    monitor := (CallBuffer.opening "table" txn limits .block {}).2
    world :=
      { workshop := { maxRetries, world := s.after [], pool := .ofLimit workers }
        bursts := [[], [.turn], [], [.turn, .deliver 1]] } }

/-- The buffer with its first flush underway. -/
def raceFirst : Buffering (Scheduled τ) :=
  { raceStart s limits workers maxRetries with
    buffer := ((raceStart s limits workers maxRetries).buffer.enqueue m₁).launch [0] 0
    world :=
      { workshop := oneQueued s (max workers 1) maxRetries m₁
        bursts := [[.turn], [], [.turn, .deliver 1]] } }

/-- The buffer with both flushes underway. -/
def raceSecond : Buffering (Scheduled τ) :=
  { raceStart s limits workers maxRetries with
    buffer := ((raceFirst s limits workers maxRetries m₁).buffer.enqueue m₂).launch [1] 1
    world :=
      { workshop := bothUnderway s (max workers 1) maxRetries m₁ m₂
        bursts := [[.turn, .deliver 1]] } }

variable {limits workers limit}

/-- A second worker takes the second flush, and is done with it before the first one. -/
theorem shifts_bothUnderway (hlimit : 1 < limit) :
    ∃ stats result, (bothUnderway s limit maxRetries m₁ m₂).shifts t [.turn, .deliver 1] =
      overtaken s limit maxRetries m₁ m₂ stats result := by
  have hroom : ¬ limit < 2 := by omega
  obtain ⟨-, hworld⟩ := Flush.run_rowByRow s maxRetries [m₂] {} []
  refine ⟨(Flush.run t maxRetries txn [m₂] {} (s.after [])).stats,
    .ok (Flush.run t maxRetries txn [m₂] {} (s.after [])).statuses, ?_⟩
  simp [bothUnderway, overtaken, hworld, hroom, Workshop.shifts, Workshop.shift, WorkerPool.turn,
    WorkerPool.retires, WorkerPool.workers, Workshop.deliver, WorkerPool.finish, Workshop.store]

/-- The first worker ends last, and the rows have been written the other way round. -/
theorem rest_overtaken (hlimit : 1 < limit) (stats : WriterStats) (result : FlushResult) :
    ((overtaken s limit maxRetries m₁ m₂ stats result).rest t).world = s.after [m₂, m₁] ∧
      ∃ result', ((overtaken s limit maxRetries m₁ m₂ stats result).rest t).results =
        [(1, result), (0, result')] := by
  have hroom : ¬ limit < 2 := by omega
  obtain ⟨-, hworld⟩ := Flush.run_rowByRow s maxRetries [m₁] stats [m₂]
  simp [overtaken, hworld, hroom, Workshop.rest, Workshop.advance, WorkerPool.settle, Nat.repeat,
    WorkerPool.turn, WorkerPool.retires, WorkerPool.workers, Workshop.deliver, WorkerPool.finish,
    Workshop.store]

variable {s maxRetries m₁ m₂}

/-- The first flush is handed over, and a first worker starts. -/
theorem sendPending_raceStart :
    Buffering.sendPending (Scheduled.delivery t) .block
      { raceStart s limits workers maxRetries with
        buffer := (raceStart s limits workers maxRetries).buffer.enqueue m₁ } =
      (.ok (), raceFirst s limits workers maxRetries m₁) := by
  have hroom : 0 < limits.normalized.maxFlushes :=
    Nat.lt_of_lt_of_le Nat.zero_lt_one (Nat.le_max_right _ _)
  have hsent : Workshop.sendLater txn [m₁]
      { maxRetries, world := s.after [], pool := .ofLimit workers } =
      (.ok 0, oneQueued s (max workers 1) maxRetries m₁) := by
    simp [Workshop.sendLater, WorkerPool.execute, WorkerPool.ofLimit, WorkerPool.idle,
      WorkerPool.workers, oneQueued]
  refine (Buffering.sendPending_of_room .block rfl ?_).trans (Scheduled.handOver_eq hsent)
  exact hroom

/-- The first worker takes the first flush; the second one is handed over, and a second worker starts. -/
theorem sendPending_raceFirst (hworkers : 1 < workers) (hflushes : 1 < limits.maxFlushes) :
    Buffering.sendPending (Scheduled.delivery t) .block
      { raceFirst s limits workers maxRetries m₁ with
        buffer := (raceFirst s limits workers maxRetries m₁).buffer.enqueue m₂ } =
      (.ok (), raceSecond s limits workers maxRetries m₁ m₂) := by
  have hroom : 1 < limits.normalized.maxFlushes := Nat.lt_of_lt_of_le hflushes (Nat.le_max_left _ _)
  have hturn : (oneQueued s (max workers 1) maxRetries m₁).shifts t [.turn] =
      firstRuns s (max workers 1) maxRetries m₁ := by
    simp [oneQueued, firstRuns, Workshop.shifts, Workshop.shift, WorkerPool.turn, WorkerPool.retires,
      WorkerPool.workers]
  have hwaiting : (Scheduled.delivery t).isDone 0
      { workshop := oneQueued s (max workers 1) maxRetries m₁
        bursts := [[.turn], [], [.turn, .deliver 1]] } =
      (false, { workshop := firstRuns s (max workers 1) maxRetries m₁
                bursts := [[], [.turn, .deliver 1]] }) := by
    simp [Scheduled.delivery, Workshop.delivery, Scheduled.ask, Scheduled.proceed, hturn, Workshop.result?,
      firstRuns]
  have hsent : (firstRuns s (max workers 1) maxRetries m₁).sendLater txn [m₂] =
      (.ok 1, bothUnderway s (max workers 1) maxRetries m₁ m₂) := by
    simp [Workshop.sendLater, WorkerPool.execute, WorkerPool.idle, WorkerPool.workers, firstRuns,
      bothUnderway, hworkers]
  have hreap := Buffering.reap_of_waiting (d := Scheduled.delivery t)
    (s := { raceFirst s limits workers maxRetries m₁ with
      buffer := (raceFirst s limits workers maxRetries m₁).buffer.enqueue m₂ }) rfl hwaiting
  rw [Buffering.sendPending_of_room .block rfl (by rw [hreap]; exact hroom), hreap]
  exact Scheduled.handOver_eq hsent

/-- While the buffer waits for the first flush, a second worker is done with the second one. -/
theorem close_raceSecond (hworkers : 1 < workers) :
    (Buffering.close (Scheduled.delivery t)
      (raceSecond s limits workers maxRetries m₁ m₂)).2.world.workshop.world = s.after [m₂, m₁] := by
  have hlimit : 1 < max workers 1 := Nat.lt_of_lt_of_le hworkers (Nat.le_max_left _ _)
  obtain ⟨stats, result, hshifts⟩ := shifts_bothUnderway s maxRetries m₁ m₂ hlimit
  obtain ⟨hworld, result', hresults⟩ := rest_overtaken s maxRetries m₁ m₂ hlimit stats result
  have hwaiting : (overtaken s (max workers 1) maxRetries m₁ m₂ stats result).result? 0 = none := rfl
  generalize hrest : (overtaken s (max workers 1) maxRetries m₁ m₂ stats result).rest t = w
    at hworld hresults
  have hwait : (Scheduled.delivery t).wait 0
      { workshop := bothUnderway s (max workers 1) maxRetries m₁ m₂
        bursts := [[.turn, .deliver 1]] } =
      ((w.collect 0).1, { workshop := (w.collect 0).2, bursts := [] }) := by
    simp [Scheduled.delivery, Workshop.delivery, Scheduled.ask, Scheduled.proceed, hshifts, hwaiting, hrest]
  have hwait' : (Scheduled.delivery t).wait 1 { workshop := (w.collect 0).2, bursts := [] } =
      (((w.collect 0).2.collect 1).1, { workshop := ((w.collect 0).2.collect 1).2, bursts := [] }) := by
    simp [Scheduled.delivery, Workshop.delivery, Scheduled.ask, Scheduled.proceed, Workshop.collect,
      Workshop.result?, hresults]
  have hcollected : ((w.collect 0).2.collect 1).2.world = s.after [m₂, m₁] := hworld
  simpa [raceSecond, raceFirst, raceStart, CallBuffer.opening, CallBuffer.enqueue, CallBuffer.launch,
    Buffering.close, Buffering.sendPending, Buffering.completeAll, Buffering.completeAllWithin,
    Buffering.completeOldest, CallBuffer.record, Buffering.drain, hwait, hwait'] using hcollected

/-- **Flushes can overtake each other**: with two workers and two flushes in flight, the second of two rows
can be written before the first one. -/
theorem closed_race (hworkers : 1 < workers) (hflushes : 1 < limits.maxFlushes) :
    let calls : List BufferCall := [.add m₁, .flush, .add m₂, .flush]
    let start := raceStart s limits workers maxRetries
    Buffering.taken (Scheduled.delivery t) start calls = [m₁, m₂] ∧
      (Buffering.close (Scheduled.delivery t)
        (Buffering.runCalls (Scheduled.delivery t) start calls).2).2.world.workshop.world =
          s.after [m₂, m₁] := by
  obtain ⟨hfirst, hopen⟩ := Buffering.perform_add_flush
    (s := raceStart s limits workers maxRetries) rfl m₁ sendPending_raceStart
  obtain ⟨hsecond, -⟩ := Buffering.perform_add_flush hopen m₂
    (sendPending_raceFirst hworkers hflushes)
  constructor
  · rw [Buffering.taken_add _ rfl, Buffering.taken_flush, hfirst, Buffering.taken_add _ hopen,
      Buffering.taken_flush]
    rfl
  · rw [← close_raceSecond hworkers, ← hsecond, ← hfirst]
    rfl

end

end Transport.RowByRow

/-- The mutations of a batch that succeed, of one row. -/
def Transport.landed (rows : List Mutation) (answer : Except PipelineError (List Status)) (key : Bytes) :
    List Mutation :=
  match answer with
  | .error _ => []
  | .ok statuses => ((rows.zip statuses).filter fun r => r.1.key = key && r.2.isSuccess).map Prod.fst

/-- A transport that remembers, for each row, the mutations that it has applied, in order. -/
def Transport.traced {τ : Type} (t : Transport τ) : Transport (τ × (Bytes → List Mutation)) where
  locate key w :=
    let (answer, world) := t.locate key w.1
    (answer, world, w.2)
  write partition txn rows w :=
    let (answer, world) := t.write partition txn rows w.1
    (answer, world, fun key => w.2 key ++ landed rows answer key)

namespace Transport.RowByRow

variable {τ : Type} {t : Transport τ} {txn : View} (s : t.RowByRow txn)

/-- The mutations of one row that its partition accepts. -/
def accepted (rows : List Mutation) (key : Bytes) : List Mutation :=
  rows.filter fun m => m.key = key && (s.outcome m).isSuccess

theorem landed_outcome (rows : List Mutation) (key : Bytes) :
    landed rows (.ok (rows.map s.outcome)) key = s.accepted rows key := by
  have hzip : rows.zip (rows.map s.outcome) = rows.map fun m => (m, s.outcome m) := by
    rw [List.zip_map_right, List.zip_eq_zipWith]
    simp
  simp only [landed, accepted, hzip, List.filter_map, List.map_map]
  exact List.map_id _

/-- Remembering what has been applied keeps rows one by one. -/
def traced : t.traced.RowByRow txn where
  home := s.home
  outcome := s.outcome
  after rows := (s.after rows, s.accepted rows)
  locate sent key := by
    simp only [Transport.traced, s.locate]
  write sent rows key hrows := by
    simp only [Transport.traced, s.write sent rows key hrows, landed_outcome]
    refine Prod.ext rfl (Prod.ext rfl (funext fun key => ?_))
    exact (List.filter_append sent rows).symm
  after_congr {rows rows'} h := by
    refine Prod.ext (s.after_congr h) (funext fun key => ?_)
    -- All rows of one key have one home.
    have hkey : ∀ rows : List Mutation, s.accepted rows key =
        (rows.filter fun m => s.home m.key = s.home key && (s.outcome m).isSuccess).filter
          (·.key = key) := by
      intro rows
      rw [List.filter_filter]
      refine List.filter_congr fun m _ => ?_
      by_cases hm : m.key = key
      · simp [hm]
      · simp [hm]
    show s.accepted rows key = s.accepted rows' key
    rw [hkey, hkey, h]

end Transport.RowByRow

/-- A buffer over a cluster, with the operations on it and the schedule of its workers. -/
structure ScheduledRun where
  cluster : Cluster
  txn : View
  destination : String := "table"
  policy : Backpressure := .block
  monitor : Monitor := {}
  maxRetries : Nat := 0
  calls : List BufferCall
  bursts : List (List Workshop.Shift)

namespace ScheduledRun

/-- The way to the cluster, with a memory of what has been applied. -/
abbrev delivery : Delivery (Scheduled (Cluster × (Bytes → List Mutation))) :=
  Scheduled.delivery Cluster.transport.traced

variable (r : ScheduledRun) (limits : BufferLimits) (workers : Nat)

/-- The buffer when it is opened. -/
def start : Buffering (Scheduled (Cluster × (Bytes → List Mutation))) :=
  let opened := CallBuffer.opening r.destination r.txn limits r.policy r.monitor
  { buffer := opened.1
    monitor := opened.2
    world :=
      { workshop :=
          { maxRetries := r.maxRetries, world := (r.cluster, fun _ => []), pool := .ofLimit workers }
        bursts := r.bursts } }

/-- The rows that were submitted. -/
def rows : List Mutation := Buffering.taken delivery (r.start limits workers) r.calls

/-- The cluster when the buffer has been closed, and what it has applied to each row. -/
def closed : Cluster × (Bytes → List Mutation) :=
  (Buffering.close delivery
    (Buffering.runCalls delivery (r.start limits workers) r.calls).2).2.world.workshop.world

/-- What was submitted for one row and is accepted by its region, in order of submission. -/
def accepted (key : Bytes) : List Mutation :=
  (r.rows limits workers).filter fun m => m.key = key && (r.cluster.outcome r.txn m).isSuccess

end ScheduledRun

/-- Whether a buffer with these limits, over a pool of so many workers, has its rows applied in the order in
which they were submitted, so that in the end the transaction's version of each row is the last one: over
every cluster without a resolver, for all operations and every schedule of the workers, as long as no row
needs a retry. -/
def KeepsOrder (limits : BufferLimits) (workers : Nat) : Prop :=
  ∀ (r : ScheduledRun) (splits : List Bytes),
    r.cluster.shards.map Shard.region = Cluster.regions splits → r.cluster.resolver = none →
    (∀ m ∈ r.rows limits workers, (r.cluster.outcome r.txn m).isRetryable = false) →
    ∀ key, (r.closed limits workers).2 key = r.accepted limits workers key ∧
      ∀ m, (r.accepted limits workers key).getLast? = some m →
        ∃ shard, (r.closed limits workers).1.regionOf? key = some shard ∧
          (shard.cells.versions key).filter (·.writer = r.txn.id) = [Region.cellOf r.txn m]

namespace KeepsOrder

variable {limits : BufferLimits} {workers : Nat}

/-- The last accepted row is the transaction's version in the end. -/
theorem own_after {c : Cluster} {txn : View} (h : c.WellSplit) (rows : List Mutation) {key : Bytes}
    {m : Mutation}
    (hlast : (rows.filter fun m => m.key = key && (c.outcome txn m).isSuccess).getLast? = some m) :
    ∃ shard, (c.after txn rows).regionOf? key = some shard ∧
      (shard.cells.versions key).filter (·.writer = txn.id) = [Region.cellOf txn m] := by
  obtain ⟨shard, hshard⟩ := h.covers key
  have hhome : c.home key = shard.region.name := by simp [Cluster.home, hshard]
  refine ⟨c.shardAfter txn rows shard, by rw [Cluster.regionOf?_after, hshard]; rfl, ?_⟩
  refine Region.own_putAll txn _ shard.cells ?_
  rw [← hlast, Cluster.landing, List.filter_filter]
  congr 1
  refine List.filter_congr fun m _ => ?_
  by_cases hm : m.key = key
  · simp [hm, hhome]
  · simp [hm]

/-- **Alone, flushes keep the order.** -/
theorem of_alone (halone : workers ≤ 1 ∨ limits.maxFlushes ≤ 1) : KeepsOrder limits workers := by
  intro r splits hregions hresolver _ key
  have hsplit := Cluster.wellSplit_of_regions hregions
  have hworld : (r.cluster, fun _ => []) =
      (r.cluster.rowByRow r.txn hsplit hresolver).traced.after [] :=
    Prod.ext Cluster.after_nil.symm rfl
  have hclosed : r.closed limits workers =
      (r.cluster.rowByRow r.txn hsplit hresolver).traced.after (r.rows limits workers) :=
    Transport.RowByRow.closed_inOrder _ r.destination r.policy r.monitor r.maxRetries halone hworld
      r.calls r.bursts
  rw [hclosed]
  exact ⟨rfl, fun m hlast => own_after hsplit _ hlast⟩

end KeepsOrder

/-- Two rows that are sent one by one, on a schedule on which the second flush is done first. -/
def ScheduledRun.race (c : Cluster) (txn : View) (m₁ m₂ : Mutation) : ScheduledRun where
  cluster := c
  txn
  calls := [.add m₁, .flush, .add m₂, .flush]
  bursts := [[], [.turn], [], [.turn, .deliver 1]]

theorem ScheduledRun.closed_race {c : Cluster} (hsplit : c.WellSplit) (hresolver : c.resolver = none)
    (txn : View) (m₁ m₂ : Mutation) {limits : BufferLimits} {workers : Nat} (hworkers : 1 < workers)
    (hflushes : 1 < limits.maxFlushes) :
    (race c txn m₁ m₂).rows limits workers = [m₁, m₂] ∧
      (race c txn m₁ m₂).closed limits workers =
        (c.rowByRow txn hsplit hresolver).traced.after [m₂, m₁] := by
  have hworld : (c.rowByRow txn hsplit hresolver).traced.after [] = (c, fun _ => []) :=
    Prod.ext Cluster.after_nil rfl
  have hstart : (race c txn m₁ m₂).start limits workers =
      (c.rowByRow txn hsplit hresolver).traced.raceStart limits workers 0 := by
    rw [Transport.RowByRow.raceStart, hworld]
    rfl
  rw [rows, closed, hstart]
  exact Transport.RowByRow.closed_race hworkers hflushes

/-- Two different rows of one key that both succeed can be applied the other way round. -/
theorem KeepsOrder.not_of_together {limits : BufferLimits} {workers : Nat} (hworkers : 1 < workers)
    (hflushes : 1 < limits.maxFlushes) {c : Cluster} {splits : List Bytes}
    (hregions : c.shards.map Shard.region = Cluster.regions splits) (hresolver : c.resolver = none)
    {txn : View} {m₁ m₂ : Mutation} (hkey : m₂.key = m₁.key) (hne : m₂ ≠ m₁)
    (hfirst : c.outcome txn m₁ = .success) (hsecond : c.outcome txn m₂ = .success) :
    ¬ KeepsOrder limits workers := by
  intro h
  obtain ⟨hrows, hclosed⟩ := ScheduledRun.closed_race (Cluster.wellSplit_of_regions hregions) hresolver
    txn m₁ m₂ hworkers hflushes
  have hfinal : ∀ m ∈ (ScheduledRun.race c txn m₁ m₂).rows limits workers,
      (c.outcome txn m).isRetryable = false := by
    rw [hrows]
    simp [hfirst, hsecond, Status.isRetryable, Status.errorClass]
  obtain ⟨horder, -⟩ := h (.race c txn m₁ m₂) splits hregions hresolver hfinal m₁.key
  rw [hclosed, ScheduledRun.accepted, hrows] at horder
  have hswapped : [m₂, m₁] = [m₁, m₂] := by
    simpa [Transport.RowByRow.traced, Transport.RowByRow.accepted, Cluster.rowByRow, ScheduledRun.race,
      hkey, hfirst, hsecond, Status.isSuccess] using horder
  exact hne (List.cons.inj hswapped).1

namespace OneRow

/-- The transaction of the buffer. -/
def writer : View := { id := ⟨1⟩, begin := ⟨1⟩ }

/-- One empty region. -/
def cluster : Cluster := .ofSplits (Harness.onFile.record writer).2 []

def first : Mutation := { kind := .upsert, key := [1], value := [1] }

def second : Mutation := { first with value := [2] }

theorem regions_cluster : cluster.shards.map Shard.region = Cluster.regions [] := by
  decide +kernel

theorem resolver_cluster : cluster.resolver = none := rfl

theorem outcome_first : cluster.outcome writer first = .success := by
  decide +kernel

theorem outcome_second : cluster.outcome writer second = .success := by
  decide +kernel

/-- **Flushes in flight together do not keep the order.** -/
theorem not_keepsOrder_of_together {limits : BufferLimits} {workers : Nat} (hworkers : 1 < workers)
    (hflushes : 1 < limits.maxFlushes) : ¬ KeepsOrder limits workers := by
  have hkey : second.key = first.key := rfl
  have hne : second ≠ first := by decide
  exact KeepsOrder.not_of_together hworkers hflushes regions_cluster resolver_cluster hkey hne
    outcome_first outcome_second

end OneRow

/-- **When flushes keep the order**: exactly if the pool has one worker only, or the buffer keeps one flush in
flight only. -/
theorem keepsOrder_iff (limits : BufferLimits) (workers : Nat) :
    KeepsOrder limits workers ↔ workers ≤ 1 ∨ limits.maxFlushes ≤ 1 := by
  constructor
  · intro h
    by_contra hboth
    obtain ⟨hworkers, hflushes⟩ := not_or.1 hboth
    exact OneRow.not_keepsOrder_of_together (Nat.lt_of_not_le hworkers) (Nat.lt_of_not_le hflushes) h
  · exact KeepsOrder.of_alone

/-- **A buffer can apply its rows out of order.** -/
theorem not_keepsOrder : ¬ ∀ (limits : BufferLimits) (workers : Nat), KeepsOrder limits workers :=
  fun h => OneRow.not_keepsOrder_of_together Nat.one_lt_two (show 1 < 2 from Nat.one_lt_two)
    (h { maxFlushes := 2 } 2)

/-- The version that stays is the one of the row submitted first. -/
example :
    ((ScheduledRun.race OneRow.cluster OneRow.writer OneRow.first OneRow.second).closed
      { maxEntries := 1, maxFlushes := 2 } 2).1.shards.map (·.cells.versions [1]) =
        [[Region.cellOf OneRow.writer OneRow.first]] := by
  decide +kernel

end Multiversion
