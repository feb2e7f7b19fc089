import Mathlib.Data.List.Nodup
import Multiversion.Proofs.Pipeline.DeliveryLog

/-!
# The status of a row is the first failure of what it produced

A hook may drop, add, multiply and permute the rows of a batch, and a writer may lose the result of a
flush, or answer with too few or too many statuses.  What a buffer reports is told from the log of its
dealings with them.

* `Handover.answers` — what a flush says about each row that the hook produced;
* `Handover.statusOf` — the first failure among these under one sequence number;
* `Buffering.Tracks` — the flushes that have ended and those in flight, told from the log.

Main statement: `Buffering.statuses_first_failure` — the statuses that a buffer hands out until it is
closed are those of its flushes, and of the rows that could not be sent at the end.
-/

namespace Multiversion

namespace Status

/-- The outcome that a row ends with is the first one that is not a success. -/
theorem settled_eq_find? (outcomes : List Status) :
    settled outcomes = (outcomes.find? fun s => !s.isSuccess).getD success := by
  have hfold : ∀ recorded : Status, outcomes.foldl settle recorded =
      if recorded.isSuccess then (outcomes.find? fun s => !s.isSuccess).getD success else recorded := by
    induction outcomes with
    | nil => intro recorded; cases recorded <;> rfl
    | cons s rest ih =>
        intro recorded
        rw [List.foldl_cons, ih, List.find?_cons]
        cases recorded with
        | success => cases s <;> simp [isSuccess]
        | _ => rfl
  exact hfold success

end Status

/-- Lists with the same distinct keys are equal if one is part of the other. -/
theorem eq_of_map_eq_of_subset {α β : Type} {f : α → β} {l l' : List α} (hmap : l.map f = l'.map f)
    (hnodup : (l'.map f).Nodup) (hsub : ∀ x ∈ l, x ∈ l') : l = l' := by
  refine List.ext_getElem (by simpa using congrArg List.length hmap) fun i hi hi' => ?_
  refine List.inj_on_of_nodup_map hnodup (hsub _ (List.getElem_mem hi)) (List.getElem_mem hi') ?_
  simpa [hi, hi'] using congrArg (·[i]?) hmap

namespace Handover

variable (h : Handover)

/-- The flush of a batch that was taken. -/
def flight : Flight := ⟨h.batch.map (·.seq), h.produced.map (·.seq), h.ticket⟩

/-- What a flush says about each row that was produced.  Without a result of the right length every row
has failed. -/
def answers : FlushResult → List (PendingRow × Status)
  | .ok statuses =>
      if statuses.length = h.produced.length then h.produced.zip statuses
      else h.produced.map fun row =>
        (row, .generic s!"writer returned {statuses.length} statuses for {h.produced.length} rows")
  | .error e => h.produced.map fun row => (row, .generic e.message)

/-- The first failure among what was produced under a sequence number, in sent order, or success. -/
def statusOf (result : FlushResult) (seq : Nat) : Status :=
  ((h.answers result).find? fun a => a.1.seq = seq && !a.2.isSuccess).elim .success (·.2)

/-- What is reported for the rows of the batch. -/
def reports (result : FlushResult) : List RowStatus :=
  h.batch.map fun row => ⟨row.seq, h.statusOf result row.seq⟩

/-- What is reported for flushes that have ended. -/
def reported (ended : List (Handover × FlushResult)) : List RowStatus :=
  ended.flatMap fun f => f.1.reports f.2

/-- The result of a flush is lost, or has the wrong length. -/
def Spoilt (result : FlushResult) : Prop :=
  ∀ statuses, result = .ok statuses → statuses.length ≠ h.produced.length

/-- What a flush says about the rows that were produced under sequence numbers of the batch. -/
def heard (result : FlushResult) : List (PendingRow × Status) :=
  (h.answers result).filter fun a => h.batch.any (·.seq = a.1.seq)

variable {h} {result : FlushResult}

theorem zip_sent (status : Status) :
    h.flight.sent.zip (List.replicate h.flight.sent.length status) =
      (h.produced.map fun row => (row, status)).map fun a => (a.1.seq, a.2) := by
  rw [← List.map_const', ← List.map_prod_left_eq_zip, flight, List.map_map, List.map_map]
  rfl

theorem zip_statuses (result : FlushResult) :
    h.flight.sent.zip (h.flight.statuses result) =
      (h.answers result).map fun a => (a.1.seq, a.2) := by
  have hlength : h.flight.sent.length = h.produced.length := by simp [flight]
  cases result with
  | error e => exact zip_sent (h := h) _
  | ok statuses =>
      rw [Flight.statuses, answers, hlength]
      split
      · exact List.zip_map_left
      · rw [← zip_sent, hlength]

theorem settled_outcomesOf (seq : Nat) :
    Status.settled (h.flight.outcomesOf result seq) = h.statusOf result seq := by
  have hfind : ∀ answers : List (PendingRow × Status),
      ((((answers.map fun a => (a.1.seq, a.2)).filter (·.1 = seq)).map (·.2)).find?
        fun s => !s.isSuccess) =
        (answers.find? fun a => a.1.seq = seq && !a.2.isSuccess).map (·.2) := by
    intro answers
    rw [List.find?_map, List.find?_filter, List.find?_map, Option.map_map]
    simp [Function.comp_def]
  rw [Flight.outcomesOf, zip_statuses, Status.settled_eq_find?, hfind, statusOf]
  cases (h.answers result).find? fun a => a.1.seq = seq && !a.2.isSuccess <;> rfl

/-- **What a buffer records when a flush ends** is what is promised for its batch. -/
theorem settle_flight : h.flight.settle result = h.reports result := by
  rw [Flight.settle, flight, List.map_map]
  exact List.map_congr_left fun row _ => congrArg (RowStatus.mk row.seq) (settled_outcomesOf row.seq)

/-- A row has succeeded if everything that was produced for it has. -/
theorem isSuccess_statusOf (seq : Nat) :
    (h.statusOf result seq).isSuccess = true ↔
      ∀ a ∈ h.answers result, a.1.seq = seq → a.2.isSuccess = true := by
  rw [statusOf]
  cases hfind : (h.answers result).find? fun a => a.1.seq = seq && !a.2.isSuccess with
  | none => simpa [Status.isSuccess] using hfind
  | some a =>
      have hmem := List.mem_of_find?_eq_some hfind
      have hfailed := List.find?_some hfind
      simp only [Bool.and_eq_true, decide_eq_true_eq, Bool.not_eq_true'] at hfailed
      refine iff_of_false (by simp [hfailed.2]) fun hall => ?_
      simp [hall a hmem hfailed.1] at hfailed

/-- Without a proper result, a row has failed if and only if anything was produced for it. -/
theorem isSuccess_statusOf_of_spoilt (hspoilt : h.Spoilt result) (seq : Nat) :
    (h.statusOf result seq).isSuccess = true ↔ ∀ row ∈ h.produced, row.seq ≠ seq := by
  obtain ⟨status, hfailed, hanswers⟩ : ∃ status : Status, status.isSuccess = false ∧
      h.answers result = h.produced.map fun row => (row, status) := by
    cases result with
    | error e => exact ⟨_, rfl, rfl⟩
    | ok statuses => exact ⟨_, rfl, by rw [answers, if_neg (hspoilt statuses rfl)]⟩
  rw [isSuccess_statusOf, hanswers]
  simp [hfailed]

/-- The status of a row of the batch depends on what is heard about the rows of the batch. -/
theorem statusOf_eq_heard {row : PendingRow} (hrow : row ∈ h.batch) :
    h.statusOf result row.seq =
      ((h.heard result).find? fun a => a.1.seq = row.seq && !a.2.isSuccess).elim .success (·.2) := by
  rw [statusOf, heard, List.find?_filter]
  congr 1
  refine congrArg (List.find? · _) (funext fun a => ?_)
  by_cases hseq : a.1.seq = row.seq
  · have hany : h.batch.any (·.seq = a.1.seq) = true :=
      List.any_eq_true.2 ⟨row, hrow, by simp [hseq]⟩
    simp [hany]
  · simp [hseq]

/-- **Rows under other sequence numbers are of no account.** -/
theorem reports_of_heard {h' : Handover} {result' : FlushResult} (hbatch : h'.batch = h.batch)
    (hheard : h'.heard result' = h.heard result) : h'.reports result' = h.reports result := by
  rw [reports, reports, hbatch]
  refine List.map_congr_left fun row hrow => congrArg (RowStatus.mk row.seq) ?_
  rw [statusOf_eq_heard (hbatch ▸ hrow), hheard, statusOf_eq_heard hrow]

theorem map_seq_reported (ended : List (Handover × FlushResult)) :
    (reported ended).map (·.seq) = (ended.map (·.1)).flatMap fun h => h.batch.map (·.seq) := by
  simp [reported, reports, List.map_flatMap, List.flatMap_map, Function.comp_def]

end Handover

open Handover (reported)

namespace Buffering

variable {ω : Type}

/-- The flushes of a buffer, told from its log: those that have ended, with their results, and those in
flight.  A status that was handed out or is recorded is reported by a flush, or is that of a row that
could not be sent. -/
structure Tracks (s : Buffering (ω × DeliveryLog)) (out failed : List RowStatus)
    (ended : List (Handover × FlushResult)) (flying : List Handover) : Prop where
  limits : s.buffer.InLimits
  handovers : s.log.handovers = ended.map (·.1) ++ flying
  results : s.log.results = ended.map fun f => (f.1.ticket, f.2)
  inFlight : s.buffer.inFlight = flying.map Handover.flight
  -- Every row is part of one batch, or could not be sent, or is pending.
  numbers : s.log.handovers.flatMap (fun h => h.batch.map (·.seq)) ++ failed.map (·.seq) ++
    s.buffer.pending.map (·.seq) = List.range s.buffer.nextSeq
  out : ∀ r ∈ out, r ∈ reported ended ++ failed
  recorded : s.buffer.Recorded (· ∈ reported ended ++ failed)

/-- The flushes of a buffer can be told from its log. -/
def Tracked (out failed : List RowStatus) (s : Buffering (ω × DeliveryLog)) : Prop :=
  ∃ ended flying, s.Tracks out failed ended flying

/-- The statuses of the rows that cannot be sent for the last time. -/
def unsent (d : Delivery ω) (s : Buffering ω) : List RowStatus :=
  match (sendPending d .block s).1 with
  | .ok () => []
  | .error e => s.buffer.pending.map fun row => ⟨row.seq, .generic e.message⟩

variable {d : Delivery ω} {s : Buffering (ω × DeliveryLog)} {out failed : List RowStatus}

/-- **The oldest flush ends**: its result is logged, and what it reports is recorded. -/
theorem Tracks.completeOldest {ended : List (Handover × FlushResult)} {h : Handover}
    {flying : List Handover} (hs : s.Tracks out failed ended (h :: flying)) :
    (completeOldest d.logged s).Tracks out failed
      (ended ++ [(h, (d.wait h.ticket s.world.1).1)]) flying := by
  have hlimits := inLimits_completeOldest (d := d.logged) hs.limits
  have holdest : s.buffer.inFlight = h.flight :: flying.map Handover.flight := hs.inFlight
  have hended : Buffering.completeOldest d.logged s =
      { s with
        buffer := { s.buffer with inFlight := flying.map Handover.flight }.record
          (h.reports (d.wait h.ticket s.world.1).1)
        world := ((d.wait h.ticket s.world.1).2,
          .wait h.ticket (d.wait h.ticket s.world.1).1 :: s.world.2) } := by
    simp only [Buffering.completeOldest, holdest]
    rw [← Handover.settle_flight]
    rfl
  have hmore : ∀ r ∈ reported ended ++ failed,
      r ∈ reported (ended ++ [(h, (d.wait h.ticket s.world.1).1)]) ++ failed := by
    intro r hr
    simp only [reported, List.flatMap_append, List.mem_append] at hr ⊢
    tauto
  rw [hended] at hlimits ⊢
  exact {
    limits := hlimits
    handovers := by
      rw [List.map_append, List.append_assoc]
      exact hs.handovers
    results := by
      rw [List.map_append, ← hs.results]
      exact DeliveryLog.results_cons _ _
    inFlight := rfl
    numbers := hs.numbers
    out := fun r hr => hmore r (hs.out r hr)
    recorded := by
      refine CallBuffer.Recorded.record (fun n status hstatus => hmore _ (hs.recorded n status hstatus))
        fun r hr => ?_
      simp only [reported, List.flatMap_append, List.flatMap_singleton, List.mem_append]
      exact .inl (.inr hr) }

/-- Calls of the outside world that neither take a batch nor end a flush. -/
theorem Tracks.of_log {ended : List (Handover × FlushResult)} {flying : List Handover}
    (hs : s.Tracks out failed ended flying) {s' : Buffering (ω × DeliveryLog)}
    (hbuffer : s'.buffer = s.buffer) (hhandovers : s'.log.handovers = s.log.handovers)
    (hresults : s'.log.results = s.log.results) : s'.Tracks out failed ended flying where
  limits := hbuffer ▸ hs.limits
  handovers := hhandovers.trans hs.handovers
  results := hresults.trans hs.results
  inFlight := hbuffer ▸ hs.inFlight
  numbers := by
    rw [hhandovers, hbuffer]
    exact hs.numbers
  out := hs.out
  recorded := hbuffer ▸ hs.recorded

/-- Flushes that end can be told from the log. -/
theorem steady_tracked (d : Delivery ω) (out failed : List RowStatus) :
    Steady d.logged (Tracked out failed) where
  completeOldest := by
    rintro s ⟨ended, flying, hs⟩
    cases flying with
    | nil =>
        have hnone : s.buffer.inFlight = [] := hs.inFlight
        rw [completeOldest, hnone]
        exact ⟨ended, [], hs⟩
    | cons h flying => exact ⟨_, flying, hs.completeOldest⟩
  asked := by
    rintro s ticket ⟨ended, flying, hs⟩
    exact ⟨ended, flying, hs.of_log rfl rfl (DeliveryLog.results_cons_none rfl)⟩

namespace Tracked

theorem heldBack (hs : s.Tracked out failed) : (heldBack d.logged s).Tracked out failed := by
  obtain ⟨ended, flying, hs⟩ := hs
  exact ⟨ended, flying, hs.of_log rfl rfl (DeliveryLog.results_cons_none rfl)⟩

/-- A batch that is taken is in flight from then on; otherwise its rows stay pending. -/
theorem handOver (hs : s.Tracked out [])
    (hroom : s.buffer.inFlight.length < s.buffer.limits.maxFlushes) :
    (handOver d.logged s).2.Tracked out [] := by
  obtain ⟨ended, flying, hs⟩ := hs
  obtain ⟨hresults, -, ⟨e, -, hbuffer, hhandovers⟩ | ⟨rows, ticket, -, hbuffer, hhandovers⟩⟩ :=
    log_handOver d s
  · exact ⟨ended, flying, hs.of_log hbuffer hhandovers hresults⟩
  · refine ⟨ended, flying ++ [⟨s.buffer.pending, rows, ticket⟩], ?_⟩
    exact {
      limits := by
        rw [hbuffer]
        exact ⟨by simpa [CallBuffer.launch] using Nat.succ_le_of_lt hroom, hs.limits.positive⟩
      handovers := by rw [hhandovers, hs.handovers, List.append_assoc]
      results := hresults.trans hs.results
      inFlight := by
        rw [hbuffer, List.map_append, ← hs.inFlight]
        rfl
      numbers := by
        rw [hhandovers, hbuffer]
        simpa [CallBuffer.launch] using hs.numbers
      out := hs.out
      recorded := by
        rw [hbuffer]
        exact hs.recorded }

theorem limits (hs : s.Tracked out failed) : s.buffer.InLimits := by
  obtain ⟨_, _, hs⟩ := hs
  exact hs.limits

theorem sendPending (hs : s.Tracked out []) (policy : Backpressure) :
    (sendPending d.logged policy s).2.Tracked out [] := by
  have hsteady := steady_tracked d out []
  have hreap := hsteady.reap hs
  have hheld := hreap.heldBack (d := d)
  have hsends := sends_sendPending (d := d.logged) hs.limits policy
  generalize Buffering.sendPending d.logged policy s = sent at hsends
  cases hsends with
  | nothing => exact hs
  | room _ hroom => exact hreap.handOver hroom
  | wait => exact (hsteady.completeOldest _ hheld).handOver (room_completeOldest hheld.limits)
  | giveUp => exact hheld

theorem queued (hs : s.Tracked out []) (row : Mutation) : (s.queued row).Tracked out [] := by
  obtain ⟨ended, flying, hs⟩ := hs
  refine ⟨ended, flying, { hs with limits := ⟨hs.limits.flights, hs.limits.positive⟩, numbers := ?_ }⟩
  show _ ++ (s.buffer.pending ++ [PendingRow.mk s.buffer.nextSeq row]).map (·.seq) =
    List.range (s.buffer.nextSeq + 1)
  rw [List.range_succ, ← hs.numbers, List.map_append, ← List.append_assoc]
  rfl

theorem lasting (d : Delivery ω) (out : List RowStatus) : Lasting d.logged (Tracked out []) where
  queued _ row hs := hs.queued row
  sendPending _ policy hs := hs.sendPending policy

/-- What is handed out has been recorded. -/
theorem drain (hs : s.Tracked out failed) : (drain s).2.Tracked (out ++ (drain s).1) failed := by
  obtain ⟨ended, flying, hs⟩ := hs
  refine ⟨ended, flying, { hs with
    limits := ⟨hs.limits.flights, hs.limits.positive⟩
    out := fun r hr => ?_
    recorded := fun n status hstatus => ?_ }⟩
  · rcases List.mem_append.1 hr with hr | hr
    · exact hs.out r hr
    · exact hs.recorded.drain r hr
  · simp [Buffering.drain, CallBuffer.drain] at hstatus

theorem perform (hs : s.Tracked out []) (c : BufferCall) :
    (perform d.logged s c).2.Tracked (out ++ (perform d.logged s c).1) [] := by
  cases c with
  | add row => exact (List.append_nil out).symm ▸ (lasting d out).add hs row
  | addAll rows => exact (List.append_nil out).symm ▸ (lasting d out).addAll hs rows
  | flush => exact (List.append_nil out).symm ▸ (lasting d out).flush hs
  | takeCompleted => exact ((steady_tracked d out []).reap hs).drain

theorem runCalls (hs : s.Tracked out []) (calls : List BufferCall) :
    (runCalls d.logged s calls).2.Tracked (out ++ (runCalls d.logged s calls).1) [] := by
  induction calls generalizing s out with
  | nil =>
      rw [Buffering.runCalls, List.append_nil]
      exact hs
  | cons c rest ih =>
      have hrest := ih (hs.perform (d := d) c)
      rw [List.append_assoc] at hrest
      exact hrest

/-- Rows that fail while they are pending could not be sent. -/
theorem failPending (hs : s.Tracked out []) (e : PipelineError) :
    (failPending e s).Tracked out (s.buffer.pending.map fun row => ⟨row.seq, .generic e.message⟩) := by
  obtain ⟨ended, flying, hs⟩ := hs
  have hmore : ∀ r ∈ reported ended ++ [], r ∈ reported ended ++
      s.buffer.pending.map fun row : PendingRow => RowStatus.mk row.seq (.generic e.message) :=
    fun r hr => List.mem_append_left _ (by simpa using hr)
  refine ⟨ended, flying, { hs with
    limits := ⟨hs.limits.flights, hs.limits.positive⟩
    numbers := ?_
    out := fun r hr => hmore r (hs.out r hr)
    recorded := ?_ }⟩
  · rw [List.map_map]
    exact (List.append_nil _).trans ((congrArg (· ++ _) (List.append_nil _)).symm.trans hs.numbers)
  · exact CallBuffer.Recorded.record (fun n status hstatus => hmore _ (hs.recorded n status hstatus))
      fun r hr => List.mem_append_right _ hr

theorem sendLast (hs : s.Tracked out []) :
    (sendLast d.logged s).Tracked out (unsent d.logged s) := by
  have hsent := hs.sendPending (d := d) .block
  have hfailed : ∀ e, (Buffering.sendPending d.logged .block s).1 = .error e →
      ∃ results, (Buffering.sendPending d.logged .block s).2.buffer = s.buffer.collect results :=
    fun _ herror => collect_of_sendPending_error hs.limits herror
  unfold Buffering.sendLast Buffering.unsent
  cases hsending : Buffering.sendPending d.logged .block s with
  | mk answer s' =>
      rw [hsending] at hsent hfailed
      cases answer with
      | ok => exact hsent
      | error e =>
          obtain ⟨results, hcollect⟩ := hfailed e rfl
          have hpending : s'.buffer.pending = s.buffer.pending := by rw [hcollect]; rfl
          rw [← hpending]
          exact hsent.failPending e

/-- **What closing leaves**: all flushes have ended, and what they report has been handed out. -/
theorem close (hs : s.Tracked out []) (hopen : s.buffer.closed = false) :
    ∃ ended, (close d.logged s).2.Tracks (out ++ (close d.logged s).1) (unsent d.logged s.closing) ended [] ∧
      (close d.logged s).2.buffer.pending = [] := by
  have hclosing : s.closing.Tracked out [] := by
    obtain ⟨ended, flying, hs⟩ := hs
    exact ⟨ended, flying, { hs with limits := ⟨hs.limits.flights, hs.limits.positive⟩ }⟩
  have hlast := (steady_tracked d out (unsent d.logged s.closing)).completeAll hclosing.sendLast
  have hidle := idle_close (d := d.logged) hopen
  have hleft : Tracked out (unsent d.logged s.closing)
      { completeAll d.logged (Buffering.sendLast d.logged s.closing) with
        monitor := (completeAll d.logged (Buffering.sendLast d.logged s.closing)).monitor.bufferClosed } := by
    obtain ⟨ended, flying, hlast⟩ := hlast
    exact ⟨ended, flying, hlast.of_log rfl rfl rfl⟩
  obtain ⟨ended, flying, hdrained⟩ := hleft.drain
  rw [close_of_open d.logged hopen] at hidle ⊢
  have hnone : flying = [] := List.map_eq_nil_iff.1 (hdrained.inFlight.symm.trans hidle.inFlight)
  exact ⟨ended, hnone ▸ hdrained, hidle.pending⟩

end Tracked

/-- A buffer that has just been opened has no flushes. -/
theorem tracked_opening (destination : String) (txn : View) (limits : BufferLimits)
    (policy : Backpressure) (monitor : Monitor) (world : ω) :
    Tracked [] [] { buffer := (CallBuffer.opening destination txn limits policy monitor).1,
                    monitor := (CallBuffer.opening destination txn limits policy monitor).2,
                    world := (world, []) } :=
  ⟨[], [], {
    limits := ⟨Nat.zero_le _, Nat.le_max_right _ _⟩
    handovers := rfl
    results := rfl
    inFlight := rfl
    numbers := rfl
    out := fun r hr => absurd hr (List.not_mem_nil)
    recorded := fun n status hstatus => by simp [CallBuffer.opening] at hstatus }⟩

/-- **The status of a row is the first failure of what it produced.**  For every hook, every writer, all
limits and either policy, and along every list of operations after which the buffer is closed: a log of
what the hook and the writer were given and answered changes nothing, and tells the flushes with their
results; and the statuses that the buffer hands out are, in order, those that its flushes report, and
then those of the rows that could not be sent at the end, each with the error of that sending.  When the
result of a flush is lost or has the wrong length, just those rows have failed for which anything was
produced; and what a flush reports depends only on its batch and on what was said about rows under
sequence numbers of the batch. -/
theorem statuses_first_failure (d : Delivery ω) (destination : String) (txn : View)
    (limits : BufferLimits) (policy : Backpressure) (monitor : Monitor) (world : ω)
    (calls : List BufferCall) :
    let opened := CallBuffer.opening destination txn limits policy monitor
    let start : Buffering (ω × DeliveryLog) :=
      { buffer := opened.1, monitor := opened.2, world := (world, []) }
    let ran := runCalls d.logged start calls
    let closed := close d.logged ran.2
    (runCalls d start.forget calls = ran.map id forget ∧
      close d ran.2.forget = closed.map id forget) ∧
      ∃ flushes : List (Handover × FlushResult),
        closed.2.log.handovers = flushes.map (·.1) ∧
        closed.2.log.results = flushes.map (fun f => (f.1.ticket, f.2)) ∧
        ran.1 ++ closed.1 = reported flushes ++ unsent d.logged ran.2.closing ∧
        ∀ f ∈ flushes,
          (f.1.Spoilt f.2 → ∀ row ∈ f.1.batch,
            (f.1.statusOf f.2 row.seq).isSuccess = true ↔ ∀ p ∈ f.1.produced, p.seq ≠ row.seq) ∧
          ∀ (h : Handover) (result : FlushResult), h.batch = f.1.batch →
            h.heard result = f.1.heard f.2 → h.reports result = f.1.reports f.2 := by
  intro opened start ran closed
  have hopening := open_opening destination txn limits policy monitor (world, ([] : DeliveryLog))
  obtain ⟨count, settled, hrows, hopen⟩ := hopening.runCalls (d := d.logged) calls
  obtain ⟨left, hlast, htotal, hnext, -⟩ := hopen.close (d := d.logged)
  rw [Nat.zero_add] at hlast htotal
  have htracked := (tracked_opening destination txn limits policy monitor world).runCalls (d := d) calls
  obtain ⟨ended, hclosed, hpending⟩ := htracked.close (d := d) hopen.closed
  refine ⟨⟨(forget_runCalls d start calls).symm, (forget_close d ran.2).symm⟩, ended,
    by simpa using hclosed.handovers, hclosed.results, ?_, fun f _ => ⟨?_, ?_⟩⟩
  · have hnumbers := hclosed.numbers
    rw [hclosed.handovers, hpending, List.append_nil, List.map_nil, List.append_nil,
      ← Handover.map_seq_reported, ← List.map_append] at hnumbers
    have hhanded : (ran.1 ++ closed.1).map RowStatus.seq = List.range closed.2.buffer.nextSeq := by
      rw [List.map_append, hrows, hlast, ← htotal, List.range_eq_range', ← List.range'_append_1,
        Nat.zero_add]
    refine eq_of_map_eq_of_subset (hhanded.trans hnumbers.symm) ?_ hclosed.out
    exact hnumbers ▸ List.nodup_range
  · exact fun hspoilt row _ => Handover.isSuccess_statusOf_of_spoilt hspoilt row.seq
  · exact fun h result hbatch hheard => Handover.reports_of_heard hbatch hheard

/-- The hook has turned the first row into two, dropped the second one, and made up a third one. -/
example :
    let row : Mutation := { kind := .insert, key := [] }
    let h : Handover := ⟨[⟨0, row⟩, ⟨1, row⟩], [⟨7, row⟩, ⟨0, row⟩, ⟨0, row⟩], 0⟩
    h.reports (.ok [.notRun, .success, .additiveWriteConflict]) =
        [⟨0, .additiveWriteConflict⟩, ⟨1, .success⟩] ∧
      h.reports (.error .workerLost) = [⟨0, .generic PipelineError.workerLost.message⟩, ⟨1, .success⟩] := by
  decide

end Buffering

end Multiversion
