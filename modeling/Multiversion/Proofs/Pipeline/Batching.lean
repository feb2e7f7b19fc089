import Multiversion.Pipeline.Coordinator
import Multiversion.Proofs.Pipeline.Clusters
import Multiversion.Proofs.Pipeline.Statuses

/-!
# Batching does not show

A buffer whose flushes are carried out at once, over partitions that treat rows one by one: when rows are
sent is up to the limits, but the rows sent are always the first ones that were submitted, and each gets
the status that it would get alone.

* `Transport.RowByRow.Truthful` — a status is the outcome of the row that was submitted under its number;
* `Transport.RowByRow.Keeps` — the buffer, its workshop and the statuses after some rows, the first of
  which have been sent; every operation keeps this, and none fails.

Main statement: `Cluster.batching_transparent` — a list of mutations submitted to a buffer that is then
closed ends with the same statuses, and leaves the same cells in every region, as the mutations applied
one at a time.
-/

namespace Multiversion

namespace Status

theorem foldl_settle_of_forall {outcomes : List Status} {status : Status}
    (h : ∀ s ∈ outcomes, s = status) : outcomes.foldl settle status = status := by
  induction outcomes with
  | nil => rfl
  | cons s rest ih =>
      obtain ⟨hs, hrest⟩ := List.forall_mem_cons.1 h
      have hsettle : settle status s = status := by
        rw [hs]
        cases status <;> rfl
      rw [List.foldl_cons, hsettle, ih hrest]

/-- A row all of whose outcomes are the same ends with this outcome. -/
theorem settled_of_forall {outcomes : List Status} {status : Status} (hne : outcomes ≠ [])
    (h : ∀ s ∈ outcomes, s = status) : settled outcomes = status := by
  cases outcomes with
  | nil => exact absurd rfl hne
  | cons s rest =>
      obtain ⟨hs, hrest⟩ := List.forall_mem_cons.1 h
      rw [settled, List.foldl_cons, settle_success, hs, foldl_settle_of_forall hrest]

end Status

/-- The mutations that an operation submits. -/
def BufferCall.submitted : BufferCall → List Mutation
  | add row => [row]
  | addAll rows => rows
  | flush | takeCompleted => []

/-- Flushes that are carried out at once, with batches as they are. -/
abbrev Workshop.atOnce {τ : Type} (t : Transport τ) (told : RejectionEvent → τ → τ) :
    Delivery (Workshop τ) :=
  Workshop.delivery t .direct Hook.keep told

namespace Transport.RowByRow

open Workshop (atOnce)

variable {τ : Type} {t : Transport τ} {txn : View} (s : t.RowByRow txn)

/-- Whether a status is the outcome of the row that was submitted under its number. -/
def Truthful (rows : List Mutation) (r : RowStatus) : Prop :=
  rows[r.seq]?.map s.outcome = some r.status

/-- A flush in flight has ended, and its result gives every row its outcome. -/
def Landed (rows : List Mutation) (flights : List Flight) (results : List (Ticket × FlushResult)) :
    Prop :=
  flights = [] ∧ results = [] ∨
    ∃ flight result, flights = [flight] ∧ results = [(flight.ticket, result)] ∧
      ∀ r ∈ flight.settle result, s.Truthful rows r

/-- The buffer and its workshop after some rows have been submitted, the first of which have been
sent. -/
structure Keeps (rows : List Mutation) (sent : Nat) (b : Buffering (Workshop τ)) : Prop where
  txn : b.buffer.txn = txn
  room : 0 < b.buffer.limits.maxFlushes
  nextSeq : b.buffer.nextSeq = rows.length
  le : sent ≤ rows.length
  pending : b.buffer.pending = (rows.mapIdx PendingRow.mk).drop sent
  world : b.world.world = s.after (rows.take sent)
  recorded : b.buffer.Recorded (s.Truthful rows)
  flights : s.Landed rows b.buffer.inFlight b.world.results

variable {s} {rows : List Mutation} {sent : Nat} {b : Buffering (Workshop τ)}

theorem Truthful.append {r : RowStatus} (h : s.Truthful rows r) (more : List Mutation) :
    s.Truthful (rows ++ more) r := by
  obtain ⟨row, hrow, houtcome⟩ := Option.map_eq_some_iff.1 h
  rw [Truthful, List.getElem?_append_left (List.getElem?_eq_some_iff.1 hrow).1, hrow, ← houtcome]
  rfl

/-- Statuses that are numbered in order and truthful are the outcomes of the rows. -/
theorem map_status_of_truthful {statuses : List RowStatus}
    (hnumbers : statuses.map RowStatus.seq = List.range rows.length)
    (htruthful : ∀ r ∈ statuses, s.Truthful rows r) :
    statuses.map RowStatus.status = rows.map s.outcome := by
  refine List.ext_getElem? fun n => ?_
  have hnumber := congrArg (·[n]?) hnumbers
  simp only [List.getElem?_map] at hnumber ⊢
  cases hr : statuses[n]? with
  | none =>
      have hlength : rows.length ≤ n := by simpa [hr] using hnumber
      simp [hlength]
  | some r =>
      have hseq : r.seq = n := by
        rw [hr, Option.map_some, eq_comm, List.getElem?_eq_some_iff] at hnumber
        simpa using hnumber.2.symm
      rw [← hseq, htruthful r (List.mem_of_getElem? hr)]
      rfl

/-- A flush of numbered rows in which every row has got its outcome. -/
theorem truthful_settle {pending : List PendingRow} (hpending : ∀ p ∈ pending, rows[p.seq]? = some p.row)
    (ticket : Ticket) :
    ∀ r ∈ (Flight.mk (pending.map (·.seq)) (pending.map (·.seq)) ticket).settle
      (.ok ((pending.map (·.row)).map s.outcome)), s.Truthful rows r := by
  intro r hr
  obtain ⟨seq, hseq, rfl⟩ := List.mem_map.1 hr
  obtain ⟨p, hp, rfl⟩ := List.mem_map.1 hseq
  have hlength : ((pending.map (·.row)).map s.outcome).length = (pending.map (·.seq)).length := by simp
  rw [Truthful, hpending p hp, Option.map_some, Flight.outcomesOf, Flight.statuses, if_pos hlength,
    List.map_map, List.zip_map']
  refine congrArg some (Status.settled_of_forall ?_ fun status hstatus => ?_).symm
  · refine List.ne_nil_of_mem (List.mem_map.2 ⟨(p.seq, s.outcome p.row), ?_, rfl⟩)
    exact List.mem_filter.2 ⟨List.mem_map.2 ⟨p, hp, rfl⟩, by simp⟩
  · -- What was sent under one number is one row.
    obtain ⟨_, hmem, rfl⟩ := List.mem_map.1 hstatus
    obtain ⟨hsent, hseq'⟩ := List.mem_filter.1 hmem
    obtain ⟨p', hp', rfl⟩ := List.mem_map.1 hsent
    have hrow := hpending p' hp'
    rw [show p'.seq = p.seq by simpa using hseq', hpending p hp] at hrow
    exact congrArg s.outcome (Option.some.inj hrow).symm

theorem mem_mapIdx {p : PendingRow} (h : p ∈ (rows.mapIdx PendingRow.mk).drop sent) :
    rows[p.seq]? = some p.row := by
  obtain ⟨i, hi, hp⟩ := List.mem_iff_getElem.1 (List.mem_of_mem_drop h)
  subst hp
  simp

theorem map_row_mapIdx (rows : List Mutation) (sent : Nat) :
    ((rows.mapIdx PendingRow.mk).drop sent).map (·.row) = rows.drop sent := by
  rw [List.map_drop]
  congr 1
  refine List.ext_getElem (by simp) fun i hi hi' => ?_
  simp

namespace Keeps

section

variable (h : s.Keeps rows sent b)
include h

/-- A row is submitted. -/
theorem enqueue (row : Mutation) :
    s.Keeps (rows ++ [row]) sent { b with buffer := b.buffer.enqueue row } where
  txn := h.txn
  room := h.room
  nextSeq := by simp [CallBuffer.enqueue, h.nextSeq]
  le := by simpa using Nat.le_succ_of_le h.le
  pending := by
    have hle : sent ≤ (rows.mapIdx PendingRow.mk).length := by simpa using h.le
    rw [List.mapIdx_concat, List.drop_append_of_le_length hle, ← h.pending, ← h.nextSeq]
    rfl
  world := by
    rw [List.take_append_of_le_length h.le]
    exact h.world
  recorded n status hstatus := (h.recorded n status hstatus).append _
  flights := by
    rcases h.flights with hnone | ⟨flight, result, hflight, hresult, htruthful⟩
    · exact .inl hnone
    · exact .inr ⟨flight, result, hflight, hresult, fun r hr => (htruthful r hr).append _⟩

variable (told : RejectionEvent → τ → τ)

/-- Collecting the flush in flight, if there is one. -/
theorem completeOldest :
    s.Keeps rows sent (Buffering.completeOldest (atOnce t told) b) ∧
      (Buffering.completeOldest (atOnce t told) b).buffer.inFlight = [] := by
  rcases h.flights with ⟨hnone, -⟩ | ⟨flight, result, hflight, hresult, htruthful⟩
  · rw [Buffering.completeOldest, hnone]
    exact ⟨h, hnone⟩
  · have hcollected : Buffering.completeOldest (atOnce t told) b =
        { b with
          buffer := { b.buffer with inFlight := [] }.record (flight.settle result)
          world := { b.world with results := [] } } := by
      simp [Buffering.completeOldest, hflight, atOnce, Workshop.delivery, Workshop.result?,
        Workshop.collect, hresult]
    rw [hcollected]
    refine ⟨?_, rfl⟩
    exact { h with
      recorded := CallBuffer.Recorded.record h.recorded htruthful
      flights := .inl ⟨rfl, rfl⟩ }

/-- A flush that is carried out at once is collected as soon as one looks for it. -/
theorem reap_eq :
    Buffering.reap (atOnce t told) b = Buffering.completeOldest (atOnce t told) b := by
  rcases h.flights with ⟨hnone, -⟩ | ⟨flight, result, hflight, hresult, -⟩
  · rw [Buffering.reap, Buffering.completeOldest, hnone]
    rfl
  · rw [Buffering.reap, hflight]
    simp [Buffering.reapWithin, hflight, atOnce, Workshop.delivery, Workshop.result?, hresult]

theorem completeAll_eq :
    Buffering.completeAll (atOnce t told) b = Buffering.completeOldest (atOnce t told) b := by
  rcases h.flights with ⟨hnone, -⟩ | ⟨flight, result, hflight, -, -⟩
  · rw [Buffering.completeAll, Buffering.completeOldest, hnone]
    rfl
  · rw [Buffering.completeAll, hflight]
    rfl

/-- Handing pending rows over sends all of them. -/
theorem handOver (hnone : b.buffer.inFlight = []) :
    (Buffering.handOver (atOnce t told) b).1 = .ok () ∧
      s.Keeps rows rows.length (Buffering.handOver (atOnce t told) b).2 := by
  have hresults : b.world.results = [] := by
    rcases h.flights with ⟨-, hresults⟩ | ⟨flight, result, hflight, -, -⟩
    · exact hresults
    · simp [hnone] at hflight
  let flushed := Flush.run t b.world.maxRetries b.buffer.txn (b.buffer.pending.map (·.row))
    b.world.directStats b.world.world
  obtain ⟨hstatuses, hworld⟩ : flushed.statuses = (b.buffer.pending.map (·.row)).map s.outcome ∧
      flushed.world = s.after (rows.take sent ++ b.buffer.pending.map (·.row)) := by
    simp only [flushed, h.txn, h.world]
    exact Flush.run_rowByRow s _ _ _ _
  have hsent : Buffering.handOver (atOnce t told) b = (.ok (), { b with
      buffer := b.buffer.launch (b.buffer.pending.map (·.seq)) b.world.nextTicket
      world := { b.world with
        world := flushed.world
        directStats := flushed.stats
        nextTicket := b.world.nextTicket + 1
        results := b.world.results ++ [(b.world.nextTicket, .ok flushed.statuses)] } }) := rfl
  rw [hsent]
  refine ⟨rfl, { h with le := Nat.le_refl _, pending := ?_, world := ?_, flights := .inr ?_ }⟩
  · rw [List.drop_eq_nil_of_le (by simp)]
    rfl
  · rw [List.take_length]
    refine hworld.trans (congrArg s.after ?_)
    rw [h.pending, map_row_mapIdx, List.take_append_drop]
  · refine ⟨⟨b.buffer.pending.map (·.seq), b.buffer.pending.map (·.seq), b.world.nextTicket⟩,
      .ok flushed.statuses, ?_, ?_, ?_⟩
    · rw [CallBuffer.launch, hnone]
      rfl
    · rw [hresults]
      rfl
    · rw [hstatuses]
      exact truthful_settle (fun p hp => mem_mapIdx (h.pending ▸ hp)) _

/-- **Sending never fails**, and sends every row. -/
theorem sendPending (policy : Backpressure) :
    (Buffering.sendPending (atOnce t told) policy b).1 = .ok () ∧
      s.Keeps rows rows.length (Buffering.sendPending (atOnce t told) policy b).2 := by
  unfold Buffering.sendPending
  split
  · rename_i hempty
    have hall : rows.length ≤ sent := by
      simpa [h.pending, List.isEmpty_iff] using hempty
    cases Nat.le_antisymm h.le hall
    exact ⟨rfl, h⟩
  · obtain ⟨hkeeps, hnone⟩ := h.completeOldest told
    rw [h.reap_eq told]
    -- Nothing is in flight any more, so no policy holds the flush back.
    have hroom : Buffering.makeRoom (atOnce t told) policy
        (Buffering.completeOldest (atOnce t told) b) =
          (.ok (), Buffering.completeOldest (atOnce t told) b) := by
      rw [Buffering.makeRoom, hnone, Buffering.makeRoomWithin, hnone, if_pos]
      exact hkeeps.room
    rw [hroom]
    exact hkeeps.handOver told hnone

theorem sendLast : s.Keeps rows rows.length (Buffering.sendLast (atOnce t told) b) := by
  obtain ⟨hanswer, hsent⟩ := h.sendPending told .block
  unfold Buffering.sendLast
  split
  · rename_i hfailed
    simp [hfailed] at hanswer
  · rename_i hok
    rwa [hok] at hsent

theorem flush (hopen : b.buffer.closed = false) :
    (Buffering.flush (atOnce t told) b).1 = .ok () ∧
      s.Keeps rows rows.length (Buffering.flush (atOnce t told) b).2 := by
  rw [Buffering.flush, if_neg (by simp [hopen])]
  exact h.sendPending told b.buffer.policy

/-- A submission takes the next number, whether or not it sends. -/
theorem add (hopen : b.buffer.closed = false) (row : Mutation) :
    (Buffering.add (atOnce t told) b row).1 = .ok b.buffer.nextSeq ∧
      ∃ sent', s.Keeps (rows ++ [row]) sent' (Buffering.add (atOnce t told) b row).2 := by
  have hqueued := h.enqueue row
  unfold Buffering.add
  rw [if_neg (by simp [hopen])]
  dsimp only
  split
  · obtain ⟨hanswer, hkeeps⟩ := hqueued.flush told hopen
    cases hflush : Buffering.flush (atOnce t told) { b with buffer := b.buffer.enqueue row } with
    | mk answer b' =>
        rw [hflush] at hanswer hkeeps
        cases hanswer
        exact ⟨rfl, _, hkeeps⟩
  · exact ⟨rfl, sent, hqueued⟩

/-- Handing out recorded statuses hands out truthful ones. -/
theorem drain :
    (∀ r ∈ (Buffering.drain b).1, s.Truthful rows r) ∧ s.Keeps rows sent (Buffering.drain b).2 := by
  refine ⟨h.recorded.drain, { h with recorded := fun n status hstatus => ?_ }⟩
  simp [Buffering.drain, CallBuffer.drain] at hstatus

end

variable (told : RejectionEvent → τ → τ) {handed settled : Nat}

theorem addAll (h : s.Keeps rows sent b) (hopen : b.Open handed settled) (more : List Mutation) :
    ∃ sent', s.Keeps (rows ++ more) sent' (Buffering.addAll (atOnce t told) b more).2 := by
  induction more generalizing rows sent b settled with
  | nil =>
      rw [List.append_nil]
      exact ⟨sent, h⟩
  | cons row rest ih =>
      obtain ⟨hanswer, sent', hadded⟩ := h.add told hopen.closed row
      obtain ⟨settled', hopen'⟩ := hopen.add (d := atOnce t told) row
      cases hadd : Buffering.add (atOnce t told) b row with
      | mk answer b' =>
          rw [hadd] at hanswer hadded hopen'
          cases hanswer
          rw [Buffering.addAll, hadd, List.append_cons]
          exact ih hadded hopen'

/-- **One operation** sends some rows, and hands out truthful statuses. -/
theorem perform (h : s.Keeps rows sent b) (hopen : b.Open handed settled) (c : BufferCall) :
    (∀ r ∈ (Buffering.perform (atOnce t told) b c).1, s.Truthful rows r) ∧
      ∃ sent', s.Keeps (rows ++ c.submitted) sent' (Buffering.perform (atOnce t told) b c).2 := by
  cases c with
  | add row => exact ⟨by simp [Buffering.perform], (h.add told hopen.closed row).2⟩
  | addAll more => exact ⟨by simp [Buffering.perform], h.addAll told hopen more⟩
  | flush =>
      rw [BufferCall.submitted, List.append_nil]
      exact ⟨by simp [Buffering.perform], _, (h.flush told hopen.closed).2⟩
  | takeCompleted =>
      obtain ⟨hcollected, -⟩ := h.completeOldest told
      rw [BufferCall.submitted, List.append_nil, Buffering.perform, Buffering.takeCompleted,
        h.reap_eq told]
      exact ⟨hcollected.drain.1, _, hcollected.drain.2⟩

/-- **A list of operations** does the same, by induction. -/
theorem runCalls (h : s.Keeps rows sent b) (hopen : b.Open handed settled) (calls : List BufferCall) :
    let ran := Buffering.runCalls (atOnce t told) b calls
    let all := rows ++ calls.flatMap BufferCall.submitted
    (∀ r ∈ ran.1, s.Truthful all r) ∧ ∃ sent', s.Keeps all sent' ran.2 := by
  induction calls generalizing rows sent b handed settled with
  | nil =>
      dsimp only
      rw [List.flatMap_nil, List.append_nil]
      exact ⟨by simp [Buffering.runCalls], sent, h⟩
  | cons c rest ih =>
      obtain ⟨hnow, sent', hkeeps⟩ := h.perform told hopen c
      obtain ⟨count, settled', -, hopen'⟩ := hopen.perform (d := atOnce t told) c
      obtain ⟨hlater, hall⟩ := ih hkeeps hopen'
      dsimp only at hlater hall ⊢
      rw [List.flatMap_cons, ← List.append_assoc]
      refine ⟨fun r hr => ?_, hall⟩
      rcases List.mem_append.1 hr with hr | hr
      · exact ((hnow r hr).append _).append _
      · exact hlater r hr

/-- **Closing** sends the remaining rows, and hands out truthful statuses. -/
theorem close (h : s.Keeps rows sent b) (hopen : b.buffer.closed = false) :
    (∀ r ∈ (Buffering.close (atOnce t told) b).1, s.Truthful rows r) ∧
      (Buffering.close (atOnce t told) b).2.world.world = s.after rows ∧
      (Buffering.close (atOnce t told) b).2.buffer.nextSeq = rows.length := by
  have hclosing : s.Keeps rows sent { b with buffer := { b.buffer with closed := true } } := { h with }
  have hsent := hclosing.sendLast told
  obtain ⟨hcollected, -⟩ := hsent.completeOldest told
  rw [← hsent.completeAll_eq told] at hcollected
  rw [Buffering.close_of_open _ hopen]
  dsimp only
  generalize Buffering.completeAll (atOnce t told) _ = left at hcollected ⊢
  have hcounted : s.Keeps rows rows.length { left with monitor := left.monitor.bufferClosed } :=
    { hcollected with }
  obtain ⟨htruthful, hkept⟩ := hcounted.drain
  refine ⟨htruthful, ?_, hkept.nextSeq⟩
  rw [hkept.world, List.take_length]

/-- A buffer that has just been opened on a workshop without flushes. -/
theorem opening (s : t.RowByRow txn) (destination : String) (limits : BufferLimits)
    (policy : Backpressure) (monitor : Monitor) {workshop : Workshop τ}
    (hworld : workshop.world = s.after []) (hresults : workshop.results = []) :
    let opened := CallBuffer.opening destination txn limits policy monitor
    s.Keeps [] 0 ⟨opened.1, opened.2, workshop⟩ where
  txn := rfl
  room := Nat.lt_of_lt_of_le Nat.zero_lt_one (Nat.le_max_right _ _)
  nextSeq := rfl
  le := Nat.le_refl 0
  pending := rfl
  world := hworld
  recorded n status hstatus := by simp [CallBuffer.opening] at hstatus
  flights := .inl ⟨rfl, hresults⟩

end Keeps

/-- **What a buffer hands out in the end**: the rows by number, each with its outcome; and the world is the
one after all rows. -/
theorem runCalls_close (s : t.RowByRow txn) (told : RejectionEvent → τ → τ) (destination : String)
    (limits : BufferLimits) (policy : Backpressure) (monitor : Monitor) {workshop : Workshop τ}
    (hworld : workshop.world = s.after []) (hresults : workshop.results = [])
    (calls : List BufferCall) :
    let opened := CallBuffer.opening destination txn limits policy monitor
    let ran := Buffering.runCalls (atOnce t told) ⟨opened.1, opened.2, workshop⟩ calls
    let closed := Buffering.close (atOnce t told) ran.2
    let rows := calls.flatMap BufferCall.submitted
    (ran.1 ++ closed.1).map RowStatus.seq = List.range rows.length ∧
      (ran.1 ++ closed.1).map RowStatus.status = rows.map s.outcome ∧
      closed.2.world.world = s.after rows := by
  intro opened ran closed rows
  have hkeeps := Keeps.opening s destination limits policy monitor hworld hresults
  have hopening := Buffering.open_opening destination txn limits policy monitor workshop
  obtain ⟨hearly, sent, hran⟩ := hkeeps.runCalls told hopening calls
  obtain ⟨count, settled, hfirst, hopen⟩ := hopening.runCalls (d := atOnce t told) calls
  obtain ⟨left, hlast, htotal, hnext, -⟩ := hopen.close (d := atOnce t told)
  obtain ⟨hlate, hafter, hnumber⟩ := hran.close told hopen.closed
  rw [List.nil_append] at hearly hlate hafter hnumber
  have hnumbers : (ran.1 ++ closed.1).map RowStatus.seq = List.range rows.length := by
    rw [Nat.zero_add] at hlast htotal
    rw [List.map_append, hfirst, hlast, ← hnumber, ← htotal, List.range_eq_range',
      ← List.range'_append_1, Nat.zero_add]
  refine ⟨hnumbers, map_status_of_truthful hnumbers fun r hr => ?_, hafter⟩
  rcases List.mem_append.1 hr with hr | hr
  · exact hearly r hr
  · exact hlate r hr

end Transport.RowByRow

namespace Cluster

/-- **Batching is transparent.**  Over a cluster with any split points and any cells, without a resolver,
mutations are submitted to a buffer in any way, with any limits and either policy, and any number of
retries; the buffer's flushes are carried out at once and without a hook, and it is closed in the end.
Then the statuses that it hands out are numbered in order of submission, they are those of the mutations
applied one at a time, each on the region that is named for its key, and every region has the same cells
as after these. -/
theorem batching_transparent {c : Cluster} {splits : List Bytes}
    (hregions : c.shards.map Shard.region = regions splits) (hresolver : c.resolver = none) (txn : View)
    (destination : String) (limits : BufferLimits) (policy : Backpressure) (monitor : Monitor)
    (told : RejectionEvent → Cluster → Cluster) (maxRetries : Nat) (pool : WorkerPool FlushJob)
    (calls : List BufferCall) :
    let delivery := Workshop.delivery transport .direct Hook.keep told
    let opened := CallBuffer.opening destination txn limits policy monitor
    let workshop : Workshop Cluster := { maxRetries, world := c, pool }
    let ran := Buffering.runCalls delivery ⟨opened.1, opened.2, workshop⟩ calls
    let closed := Buffering.close delivery ran.2
    let mutations := calls.flatMap BufferCall.submitted
    let inTurn := c.applyInTurn txn mutations
    (ran.1 ++ closed.1).map RowStatus.seq = List.range mutations.length ∧
      (ran.1 ++ closed.1).map (fun r => [r.status]) = inTurn.1 ∧
      closed.2.world.world = inTurn.2 := by
  intro delivery opened workshop ran closed mutations inTurn
  have hsplit := wellSplit_of_regions hregions
  have hworld : workshop.world = (c.rowByRow txn hsplit hresolver).after [] := after_nil.symm
  obtain ⟨hnumbers, hstatuses, hafter⟩ := (c.rowByRow txn hsplit hresolver).runCalls_close told
    destination limits policy monitor hworld rfl calls
  have hinTurn : inTurn = (mutations.map fun m => [c.outcome txn m], c.after txn mutations) := by
    have halone : (c.after txn []).applyInTurn txn mutations = _ := applyInTurn_after hsplit [] mutations
    rwa [after_nil, List.nil_append] at halone
  refine ⟨hnumbers, ?_, ?_⟩
  · rw [hinTurn]
    have hsingle := congrArg (List.map fun status => [status]) hstatuses
    rw [List.map_map, List.map_map] at hsingle
    exact hsingle
  · rw [hinTurn]
    exact hafter

end Cluster

namespace TwoRegions

/-- The transaction whose mutations go through a buffer. -/
def writer : View := { id := ⟨1⟩, begin := ⟨1⟩ }

/-- A transaction that has written to the second region, and is still active. -/
def rival : View := { id := ⟨2⟩, begin := ⟨2⟩ }

/-- Two regions, with the rival's version in the second one. -/
def cluster : Cluster :=
  let harness := ((Harness.onFile.record writer).2.record rival).2
  ((Cluster.ofSplits harness [[0x6d]]).write "region-1" rival [{ kind := .insert, key := [0x72] }]).2

/-- A flush after every second row, and one in flight. -/
def limits : BufferLimits := { maxEntries := 2, maxFlushes := 1 }

/-- Rows for both regions; one of them conflicts, and one is written twice. -/
def calls : List BufferCall :=
  [.addAll [{ kind := .insert, key := [0x61], value := [1] }, { kind := .update, key := [0x72] },
      { kind := .upsert, key := [0x61], value := [2] }],
    .takeCompleted, .add { kind := .delete, key := [0x78] }, .flush]

end TwoRegions

open TwoRegions in
/-- Four mutations in two flushes over two regions. -/
theorem batching_transparent_twoRegions :
    let delivery := Workshop.delivery Cluster.transport .direct Hook.keep fun _ c => c
    let opened := CallBuffer.opening "table" writer limits .reject {}
    let workshop : Workshop Cluster := { maxRetries := 2, world := cluster, pool := .ofLimit 1 }
    let ran := Buffering.runCalls delivery ⟨opened.1, opened.2, workshop⟩ calls
    let closed := Buffering.close delivery ran.2
    let inTurn := cluster.applyInTurn writer (calls.flatMap BufferCall.submitted)
    cluster.shards.map Shard.region = Cluster.regions [[0x6d]] ∧ cluster.resolver = none ∧
      inTurn.1.map (fun statuses => statuses.map Status.isSuccess) =
        [[true], [false], [true], [true]] ∧
      (ran.1 ++ closed.1).map (fun r => [r.status]) = inTurn.1 ∧
      closed.2.world.world = inTurn.2 := by
  have hregions : cluster.shards.map Shard.region = Cluster.regions [[0x6d]] := by decide +kernel
  have hresolver : cluster.resolver = none := Option.isNone_iff_eq_none.1 (by decide +kernel)
  have htransparent := Cluster.batching_transparent hregions hresolver writer "table" limits .reject {}
    (fun _ c => c) 2 (.ofLimit 1) calls
  refine ⟨hregions, hresolver, ?_, htransparent.2.1, htransparent.2.2⟩
  decide +kernel

end Multiversion
