import Mathlib.Data.List.Perm.Lattice
import Multiversion.Pipeline.CallBuffer

/-!
# One status for every row

A row that was submitted to a buffer is pending, or underway with a flush, or has got its status.
Flushes are collected oldest first, so the rows with a status are always the first ones, whatever the
hook makes of a batch, however the flushes end, and whether or not a call on the buffer fails.  Only at
the end pending rows may overtake flushes in flight: those that cannot be sent get their failure at once.

* `CallBuffer.Advances` — what sending and collecting do to a buffer;
* `CallBuffer.Accounts` — the rows up to a number have a status, those after it are underway in order;
* `CallBuffer.Covers` — the same without the order, which is what is left of it while a buffer closes;
* `Buffering.addEach`, `Buffering.Numbered` — rows submitted one by one, each with the next number.

Main statements: `Buffering.Open.addAll_cases` — several rows are submitted one by one, up to and with the
first one that fails; `Buffering.statuses_in_order` — the statuses that a buffer hands out until it is closed
are those of all submitted rows, each once and in the order of submission.
-/

namespace Multiversion

/-- An operation of a buffer before it is closed. -/
inductive BufferCall where
  | add (row : Mutation)
  | addAll (rows : List Mutation)
  | flush
  | takeCompleted

/-- A map whose keys are the numbers of an interval has them in ascending order. -/
theorem keys_eq_range' {α : Type} {m : Std.ExtTreeMap Nat α compare} {start count : Nat}
    (h : ∀ n, n ∈ m ↔ start ≤ n ∧ n < start + count) : m.keys = List.range' start count := by
  have hkeys : m.keys.Pairwise (· < ·) := m.ordered_keys.imp Nat.compare_eq_lt.1
  have hrange : (List.range' start count).Pairwise (· < ·) := List.pairwise_lt_range' 1
  refine List.Perm.eq_of_pairwise (fun a b _ _ hab hba => ?_) hkeys hrange ?_
  · omega
  · rw [List.perm_ext_iff_of_nodup (hkeys.imp Nat.ne_of_lt) (hrange.imp Nat.ne_of_lt)]
    intro n
    rw [Std.ExtTreeMap.mem_keys, List.mem_range'_1, h]

/-- Every row that was submitted with a flush gets a status from it, whatever was sent. -/
theorem Flight.map_seq_settle (f : Flight) (result : FlushResult) :
    (f.settle result).map RowStatus.seq = f.submitted := by
  simp [settle, Function.comp_def]

namespace CallBuffer

/-- The numbers of the rows that have no status yet, in order of submission. -/
def underway (b : CallBuffer) : List Nat :=
  b.inFlight.flatMap Flight.submitted ++ b.pending.map PendingRow.seq

/-- The rows from `handed` on: those below `settled` have a status, the others are underway. -/
structure Accounts (b : CallBuffer) (handed settled : Nat) : Prop where
  le : handed ≤ settled
  recorded : ∀ n, n ∈ b.completed ↔ handed ≤ n ∧ n < settled
  underway : ∃ count, b.underway = List.range' settled count ∧ settled + count = b.nextSeq

/-- Every row from `handed` on has a status or is underway, and no other one is. -/
def Covers (b : CallBuffer) (handed : Nat) : Prop :=
  ∀ n, n ∈ b.completed ∨ n ∈ b.underway ↔ handed ≤ n ∧ n < b.nextSeq

/-- What becomes of a buffer as flushes are collected, the oldest first, and pending rows are sent. -/
inductive Advances : CallBuffer → CallBuffer → Prop
  | refl (b : CallBuffer) : Advances b b
  | collect {b b' : CallBuffer} {flight : Flight} {rest : List Flight} (result : FlushResult)
      (holdest : b.inFlight = flight :: rest)
      (h : Advances ({ b with inFlight := rest }.record (flight.settle result)) b') : Advances b b'
  | launch {b b' : CallBuffer} (sent : List Nat) (ticket : Ticket)
      (h : Advances (b.launch sent ticket) b') : Advances b b'

variable {b b' : CallBuffer} {handed settled : Nat}

theorem mem_completed_record (b : CallBuffer) (rows : List RowStatus) (n : Nat) :
    n ∈ (b.record rows).completed ↔ n ∈ rows.map RowStatus.seq ∨ n ∈ b.completed := by
  show n ∈ rows.foldl (fun done r => done.insert r.seq r.status) b.completed ↔ _
  generalize b.completed = done
  induction rows generalizing done with
  | nil => simp
  | cons r rest ih =>
      rw [List.foldl_cons, ih, Std.ExtTreeMap.mem_insert, Std.compare_eq_iff_eq, List.map_cons,
        List.mem_cons, or_left_comm, or_assoc, eq_comm]

@[simp] theorem map_seq_drain (b : CallBuffer) :
    b.drain.1.map RowStatus.seq = b.completed.keys := by
  rw [drain, List.map_map, ← Std.ExtTreeMap.map_fst_toList_eq_keys]
  rfl

/-- Handing pending rows over leaves the rows underway as they are. -/
theorem underway_launch (b : CallBuffer) (sent : List Nat) (ticket : Ticket) :
    (b.launch sent ticket).underway = b.underway := by
  simp [underway, launch]

/-- A row that is submitted comes after all that are underway. -/
theorem underway_enqueue (b : CallBuffer) (row : Mutation) :
    (b.enqueue row).underway = b.underway ++ [b.nextSeq] := by
  simp [underway, enqueue]

/-- The rows of the oldest flush come before all others that are underway. -/
theorem underway_of_oldest {flight : Flight} {rest : List Flight}
    (holdest : b.inFlight = flight :: rest) (rows : List RowStatus) :
    b.underway = flight.submitted ++ ({ b with inFlight := rest }.record rows).underway := by
  simp [underway, record, holdest]

namespace Advances

theorem trans {b'' : CallBuffer} (h : b.Advances b') (h' : b'.Advances b'') : b.Advances b'' := by
  induction h with
  | refl => exact h'
  | collect result holdest _ ih => exact .collect result holdest (ih h')
  | launch sent ticket _ ih => exact .launch sent ticket (ih h')

theorem nextSeq_eq (h : b.Advances b') : b'.nextSeq = b.nextSeq := by
  induction h with
  | refl => rfl
  | collect _ _ _ ih => exact ih
  | launch _ _ _ ih => exact ih

theorem closed_eq (h : b.Advances b') : b'.closed = b.closed := by
  induction h with
  | refl => rfl
  | collect _ _ _ ih => exact ih
  | launch _ _ _ ih => exact ih

/-- **Collecting and sending keep the accounts.**  The rows that get a status are the next ones. -/
theorem accounts (h : b.Advances b') (hb : b.Accounts handed settled) :
    ∃ settled', b'.Accounts handed settled' := by
  induction h generalizing settled with
  | refl => exact ⟨settled, hb⟩
  | @collect b b' flight rest result holdest _ ih =>
      obtain ⟨count, hunderway, hnext⟩ := hb.underway
      rw [underway_of_oldest holdest (flight.settle result), eq_comm,
        List.range'_eq_append_iff] at hunderway
      obtain ⟨landed, hle, hsubmitted, hrest⟩ := hunderway
      rw [Nat.mul_one] at hrest
      refine @ih (settled + landed) ⟨?_, fun n => ?_, count - landed, hrest, ?_⟩
      · exact Nat.le_trans hb.le (Nat.le_add_right _ _)
      · have hle := hb.le
        rw [mem_completed_record, flight.map_seq_settle, hsubmitted, List.mem_range'_1]
        show _ ∨ n ∈ b.completed ↔ _
        rw [hb.recorded]
        omega
      · show _ = b.nextSeq
        omega
  | launch sent ticket _ ih =>
      refine ih ⟨hb.le, hb.recorded, ?_⟩
      rw [underway_launch]
      exact hb.underway

theorem covers (h : b.Advances b') (hb : b.Covers handed) : b'.Covers handed := by
  induction h with
  | refl => exact hb
  | @collect b b' flight rest result holdest _ ih =>
      refine ih fun n => ?_
      rw [mem_completed_record, flight.map_seq_settle, or_assoc, or_left_comm, ← List.mem_append,
        ← underway_of_oldest holdest]
      exact hb n
  | launch sent ticket _ ih =>
      refine ih fun n => ?_
      rw [underway_launch]
      exact hb n

end Advances

theorem Accounts.covers (h : b.Accounts handed settled) : b.Covers handed := by
  intro n
  obtain ⟨count, hunderway, hnext⟩ := h.underway
  have hle := h.le
  rw [h.recorded, hunderway, List.mem_range'_1]
  omega

/-- A submitted row is the last one underway. -/
theorem Accounts.enqueue (h : b.Accounts handed settled) (row : Mutation) :
    (b.enqueue row).Accounts handed settled := by
  obtain ⟨count, hunderway, hnext⟩ := h.underway
  refine ⟨h.le, h.recorded, count + 1, ?_, ?_⟩
  · rw [underway_enqueue, hunderway, List.range'_1_concat, hnext]
  · show settled + (count + 1) = b.nextSeq + 1
    omega

/-- What is handed out are the next numbers, and the accounts go on behind them. -/
theorem Accounts.drain (h : b.Accounts handed settled) :
    ∃ count, handed + count = settled ∧ b.drain.1.map RowStatus.seq = List.range' handed count ∧
      b.drain.2.Accounts settled settled := by
  have hle := h.le
  refine ⟨settled - handed, by omega, ?_, Nat.le_refl _, fun n => ?_, h.underway⟩
  · rw [map_seq_drain]
    refine keys_eq_range' fun n => ?_
    rw [h.recorded]
    omega
  · show n ∈ (∅ : Std.ExtTreeMap Nat Status compare) ↔ _
    simp

/-- What holds of all statuses that a buffer has recorded. -/
def Recorded (b : CallBuffer) (P : RowStatus → Prop) : Prop :=
  ∀ n status, b.completed[n]? = some status → P ⟨n, status⟩

variable {P : RowStatus → Prop}

theorem Recorded.record (h : b.Recorded P) {rows : List RowStatus} (hrows : ∀ r ∈ rows, P r) :
    (b.record rows).Recorded P := by
  intro n status hrecorded
  change (rows.foldl (fun done r => done.insert r.seq r.status) b.completed)[n]? = some status
    at hrecorded
  have hdone : ∀ n status, b.completed[n]? = some status → P ⟨n, status⟩ := h
  generalize b.completed = done at hrecorded hdone
  induction rows generalizing done with
  | nil => exact hdone n status hrecorded
  | cons r rest ih =>
      obtain ⟨hr, hrest⟩ := List.forall_mem_cons.1 hrows
      refine ih hrest _ hrecorded fun n status hstatus => ?_
      rw [Std.ExtTreeMap.getElem?_insert] at hstatus
      split at hstatus
      · rename_i hsame
        cases hstatus
        rw [← Std.LawfulEqCmp.eq_of_compare hsame]
        exact hr
      · exact hdone n status hstatus

theorem Recorded.drain (h : b.Recorded P) : ∀ r ∈ b.drain.1, P r := by
  intro r hr
  obtain ⟨⟨n, status⟩, hmem, rfl⟩ := List.mem_map.1 hr
  exact h n status (Std.ExtTreeMap.mem_toList_iff_getElem?_eq_some.1 hmem)

end CallBuffer

namespace Buffering

variable {ω : Type} (d : Delivery ω)

/-- One operation, and the statuses that it hands out. -/
def perform (s : Buffering ω) : BufferCall → List RowStatus × Buffering ω
  | .add row => ([], (add d s row).2)
  | .addAll rows => ([], (addAll d s rows).2)
  | .flush => ([], (flush d s).2)
  | .takeCompleted => takeCompleted d s

/-- A list of operations, and the statuses that they hand out, one after the other. -/
def runCalls (s : Buffering ω) : List BufferCall → List RowStatus × Buffering ω
  | [] => ([], s)
  | c :: rest =>
      let (rows, s) := perform d s c
      let (later, s) := runCalls s rest
      (rows ++ later, s)

variable (s : Buffering ω)

/-- The buffer once some rows have been submitted one by one, whether or not that succeeds. -/
def addEach (rows : List Mutation) : Buffering ω := rows.foldl (fun s row => (add d s row).2) s

/-- Rows that are submitted one by one get the next numbers. -/
def Numbered (rows : List Mutation) : Prop :=
  ∀ before row rest, rows = before ++ row :: rest →
    (add d (addEach d s before) row).1 = .ok (s.buffer.nextSeq + before.length)

theorem advances_completeOldest : s.buffer.Advances (completeOldest d s).buffer := by
  unfold completeOldest
  split
  · exact .refl _
  · rename_i flight rest holdest
    exact .collect _ holdest (.refl _)

theorem advances_reapWithin (fuel : Nat) : s.buffer.Advances (reapWithin d fuel s).buffer := by
  fun_induction reapWithin d fuel s with
  | case1 => exact .refl _
  | case2 => exact .refl _
  | case3 fuel s flight rest holdest world hdone ih =>
      exact (advances_completeOldest d { s with world }).trans ih
  | case4 => exact .refl _

theorem advances_reap : s.buffer.Advances (reap d s).buffer := advances_reapWithin d s _

theorem advances_makeRoomWithin (policy : Backpressure) (fuel : Nat) :
    s.buffer.Advances (makeRoomWithin d policy fuel s).2.buffer := by
  induction fuel generalizing s with
  | zero => exact .refl _
  | succ fuel ih =>
      unfold makeRoomWithin
      split
      · exact .refl _
      · cases policy with
        | block =>
            let told : Buffering ω := { s with
              monitor := s.monitor.flushRejected
              world := d.rejected s.buffer.rejection s.world }
            exact (advances_completeOldest d told).trans (ih (completeOldest d told))
        | reject => exact .refl _

theorem advances_makeRoom (policy : Backpressure) :
    s.buffer.Advances (makeRoom d policy s).2.buffer := advances_makeRoomWithin d s policy _

/-- Rows that are handed over are not pending any more; on an error they stay where they are. -/
theorem advances_handOver : s.buffer.Advances (handOver d s).2.buffer ∧
    ((handOver d s).1 = .ok () → (handOver d s).2.buffer.pending = []) := by
  unfold handOver
  split
  · exact ⟨.refl _, by simp⟩
  · split
    · exact ⟨.refl _, by simp⟩
    · exact ⟨.launch _ _ (.refl _), fun _ => rfl⟩

/-- **What sending can do**: it collects flushes, and then hands the pending rows over, or fails. -/
theorem advances_sendPending (policy : Backpressure) :
    s.buffer.Advances (sendPending d policy s).2.buffer ∧
      ((sendPending d policy s).1 = .ok () → (sendPending d policy s).2.buffer.pending = []) := by
  unfold sendPending
  split
  · rename_i hempty
    exact ⟨.refl _, fun _ => List.isEmpty_iff.1 hempty⟩
  · have hroom := (advances_reap d s).trans (advances_makeRoom d (reap d s) policy)
    split
    · rename_i hmake
      rw [hmake] at hroom
      exact ⟨hroom, by simp⟩
    · rename_i s' hmake
      rw [hmake] at hroom
      obtain ⟨hover, hnone⟩ := advances_handOver d s'
      exact ⟨hroom.trans hover, hnone⟩

theorem advances_flush : s.buffer.Advances (flush d s).2.buffer := by
  unfold flush
  split
  · exact .refl _
  · exact (advances_sendPending d s _).1

/-- **What a submission can do** to an open buffer: the row takes the next number, whether or not the
flush that it may cause succeeds. -/
theorem advances_add (hopen : s.buffer.closed = false) (row : Mutation) :
    (s.buffer.enqueue row).Advances (add d s row).2.buffer ∧
      ∀ n, (add d s row).1 = .ok n → n = s.buffer.nextSeq := by
  unfold add
  rw [if_neg (by simp [hopen])]
  dsimp only
  split
  · have hflush := advances_flush d { s with buffer := s.buffer.enqueue row }
    split
    · rename_i hfailed
      rw [hfailed] at hflush
      exact ⟨hflush, by simp⟩
    · rename_i hsent
      rw [hsent] at hflush
      exact ⟨hflush, fun n hn => (Except.ok.inj hn).symm⟩
  · exact ⟨.refl _, fun n hn => (Except.ok.inj hn).symm⟩

variable {d s} {handed settled : Nat}

/-- An open buffer whose accounts are in order. -/
structure Open (s : Buffering ω) (handed settled : Nat) : Prop where
  closed : s.buffer.closed = false
  accounts : s.buffer.Accounts handed settled

theorem Open.advance (h : s.Open handed settled) {s' : Buffering ω}
    (hadvances : s.buffer.Advances s'.buffer) : ∃ settled', s'.Open handed settled' := by
  obtain ⟨settled', haccounts⟩ := hadvances.accounts h.accounts
  exact ⟨settled', hadvances.closed_eq.trans h.closed, haccounts⟩

theorem Open.add (h : s.Open handed settled) (row : Mutation) :
    ∃ settled', (add d s row).2.Open handed settled' := by
  have hqueued : Open { s with buffer := s.buffer.enqueue row } handed settled :=
    ⟨h.closed, h.accounts.enqueue row⟩
  exact hqueued.advance (advances_add d s h.closed row).1

/-- Every row that is submitted takes a number. -/
theorem Open.nextSeq_addEach (h : s.Open handed settled) (rows : List Mutation) :
    (addEach d s rows).buffer.nextSeq = s.buffer.nextSeq + rows.length := by
  induction rows generalizing s settled with
  | nil => rfl
  | cons row rest ih =>
      obtain ⟨settled', hadded⟩ := h.add (d := d) row
      have hnext : (Buffering.add d s row).2.buffer.nextSeq = s.buffer.nextSeq + 1 :=
        (advances_add d s h.closed row).1.nextSeq_eq
      have hrest : (addEach d s (row :: rest)).buffer.nextSeq = _ := ih hadded
      rw [hrest, hnext, List.length_cons]
      omega

theorem addEach_cons {row : Mutation} {answer : Except PipelineError Nat} {s' : Buffering ω}
    (hrow : Buffering.add d s row = (answer, s')) (rows : List Mutation) :
    addEach d s (row :: rows) = addEach d s' rows := by
  rw [addEach, List.foldl_cons, hrow]
  rfl

/-- A first row that gets its number, and the others behind it. -/
theorem Open.numbered_cons (h : s.Open handed settled) {row : Mutation} {n : Nat} {s' : Buffering ω}
    (hrow : Buffering.add d s row = (.ok n, s')) {rest : List Mutation} (hrest : Numbered d s' rest) :
    Numbered d s (row :: rest) := by
  obtain ⟨hadvances, hnumber⟩ := advances_add d s h.closed row
  rw [hrow] at hadvances hnumber
  have hnext : s'.buffer.nextSeq = s.buffer.nextSeq + 1 := hadvances.nextSeq_eq
  intro before row' rest' hsplit
  cases before with
  | nil =>
      obtain ⟨rfl, -⟩ := List.cons.inj hsplit
      rw [addEach, List.foldl_nil, hrow, hnumber n rfl]
      rfl
  | cons first before =>
      obtain ⟨rfl, htail⟩ := List.cons.inj hsplit
      rw [addEach_cons hrow, hrest before row' rest' htail, hnext, List.length_cons, Nat.add_right_comm,
        Nat.add_assoc]

/-- **Submitting several rows** is submitting them one by one, up to the first one that fails; this one has
taken its number by then, and those behind it have not. -/
theorem Open.addAll_cases (h : s.Open handed settled) (rows : List Mutation) :
    (Buffering.addAll d s rows = (.ok (), addEach d s rows) ∧ Numbered d s rows) ∨
      ∃ before row rest e, rows = before ++ row :: rest ∧ Numbered d s before ∧
        (Buffering.add d (addEach d s before) row).1 = .error e ∧
        Buffering.addAll d s rows = (.error e, addEach d s (before ++ [row])) := by
  induction rows generalizing s settled with
  | nil => exact .inl ⟨rfl, fun before row rest hsplit => by simp at hsplit⟩
  | cons row rest ih =>
      obtain ⟨settled', hadded⟩ := h.add (d := d) row
      cases hrow : Buffering.add d s row with
      | mk answer s' =>
          rw [hrow] at hadded
          cases answer with
          | error e =>
              refine .inr ⟨[], row, rest, e, rfl, fun _ _ _ hsplit => by simp at hsplit,
                congrArg Prod.fst hrow, ?_⟩
              rw [Buffering.addAll, hrow, List.nil_append, addEach_cons hrow]
              rfl
          | ok n =>
              have hall : Buffering.addAll d s (row :: rest) = Buffering.addAll d s' rest := by
                rw [Buffering.addAll, hrow]
              rcases ih hadded with ⟨hdone, hnumbered⟩ | ⟨before, failed, others, e, rfl, hnumbered, hrest⟩
              · exact .inl ⟨by rw [hall, addEach_cons hrow, hdone], h.numbered_cons hrow hnumbered⟩
              · refine .inr ⟨row :: before, failed, others, e, rfl, h.numbered_cons hrow hnumbered, ?_⟩
                rwa [List.cons_append, hall, addEach_cons hrow, addEach_cons hrow]

theorem Open.addAll (h : s.Open handed settled) (rows : List Mutation) :
    ∃ settled', (addAll d s rows).2.Open handed settled' := by
  induction rows generalizing s settled with
  | nil => exact ⟨settled, h⟩
  | cons row rest ih =>
      obtain ⟨settled', hadded⟩ := h.add (d := d) row
      unfold Buffering.addAll
      split
      · rename_i hfailed
        rw [hfailed] at hadded
        exact ⟨settled', hadded⟩
      · rename_i hok
        rw [hok] at hadded
        exact ih hadded

/-- What an operation hands out are the next numbers. -/
theorem Open.perform (h : s.Open handed settled) (c : BufferCall) :
    ∃ count settled', (perform d s c).1.map RowStatus.seq = List.range' handed count ∧
      (perform d s c).2.Open (handed + count) settled' := by
  cases c with
  | add row =>
      obtain ⟨settled', hadded⟩ := h.add (d := d) row
      exact ⟨0, settled', rfl, hadded⟩
  | addAll rows =>
      obtain ⟨settled', hadded⟩ := h.addAll (d := d) rows
      exact ⟨0, settled', rfl, hadded⟩
  | flush =>
      obtain ⟨settled', hflushed⟩ := h.advance (advances_flush d s)
      exact ⟨0, settled', rfl, hflushed⟩
  | takeCompleted =>
      obtain ⟨settled', hreaped⟩ := h.advance (advances_reap d s)
      obtain ⟨count, rfl, hnumbers, hdrained⟩ := hreaped.accounts.drain
      exact ⟨count, handed + count, hnumbers, hreaped.closed, hdrained⟩

/-- **What a run hands out** are the next numbers. -/
theorem Open.runCalls (h : s.Open handed settled) (calls : List BufferCall) :
    ∃ count settled', (runCalls d s calls).1.map RowStatus.seq = List.range' handed count ∧
      (runCalls d s calls).2.Open (handed + count) settled' := by
  induction calls generalizing s handed settled with
  | nil => exact ⟨0, settled, rfl, h⟩
  | cons c rest ih =>
      obtain ⟨now, settled', hnumbers, hopen⟩ := h.perform (d := d) c
      obtain ⟨later, settled'', hnumbers', hopen'⟩ := ih hopen
      refine ⟨now + later, settled'', ?_, ?_⟩
      · rw [Buffering.runCalls, List.map_append, hnumbers, hnumbers', List.range'_append_1]
      · rw [← Nat.add_assoc]
        exact hopen'

/-- Rows that fail while they are pending have a status from then on. -/
theorem covers_failPending (h : s.buffer.Covers handed) (e : PipelineError) :
    (failPending e s).buffer.Covers handed := by
  intro n
  have hcovered := h n
  have hfailed : (s.buffer.pending.map fun p : PendingRow =>
      RowStatus.mk p.seq (.generic e.message)).map RowStatus.seq =
        s.buffer.pending.map PendingRow.seq := by
    rw [List.map_map]
    rfl
  rw [CallBuffer.underway, List.mem_append] at hcovered
  rw [failPending, CallBuffer.mem_completed_record, hfailed]
  simp only [CallBuffer.underway, CallBuffer.record, List.map_nil, List.append_nil]
  rw [or_comm (a := n ∈ s.buffer.pending.map PendingRow.seq), or_assoc,
    or_comm (a := n ∈ s.buffer.pending.map PendingRow.seq)]
  exact hcovered

variable (d s) in
/-- Sends what is pending for the last time; what cannot be sent fails. -/
def sendLast : Buffering ω :=
  match sendPending d .block s with
  | (.error e, s) => failPending e s
  | (.ok (), s) => s

variable (d s) in
/-- Nothing is pending after the last sending, and a buffer that is closed stays closed. -/
theorem sendLast_spec : (sendLast d s).buffer.pending = [] ∧
    (sendLast d s).buffer.nextSeq = s.buffer.nextSeq ∧
    (sendLast d s).buffer.closed = s.buffer.closed := by
  obtain ⟨hadvances, hnone⟩ := advances_sendPending d s .block
  unfold sendLast
  split
  · rename_i hfailed
    rw [hfailed] at hadvances
    exact ⟨rfl, hadvances.nextSeq_eq, hadvances.closed_eq⟩
  · rename_i hsent
    rw [hsent] at hadvances hnone
    exact ⟨hnone rfl, hadvances.nextSeq_eq, hadvances.closed_eq⟩

/-- Every row is still accounted for after the last sending. -/
theorem covers_sendLast (h : s.buffer.Covers handed) : (sendLast d s).buffer.Covers handed := by
  have hadvances := (advances_sendPending d s .block).1
  unfold sendLast
  split
  · rename_i e s' hfailed
    rw [hfailed] at hadvances
    exact covers_failPending (hadvances.covers h) e
  · rename_i s' hsent
    rw [hsent] at hadvances
    exact hadvances.covers h

/-- Waiting for flushes one by one takes them off the list of those in flight. -/
theorem completeAllWithin_spec (fuel : Nat) :
    s.buffer.Advances (completeAllWithin d fuel s).buffer ∧
      (completeAllWithin d fuel s).buffer.inFlight = s.buffer.inFlight.drop fuel ∧
      (completeAllWithin d fuel s).buffer.pending = s.buffer.pending := by
  induction fuel generalizing s with
  | zero => exact ⟨.refl _, rfl, rfl⟩
  | succ fuel ih =>
      obtain ⟨hadvances, hflights, hpending⟩ := ih (s := completeOldest d s)
      have holdest : (completeOldest d s).buffer.inFlight = s.buffer.inFlight.drop 1 ∧
          (completeOldest d s).buffer.pending = s.buffer.pending := by
        unfold completeOldest
        split
        · rename_i hnone
          exact ⟨by simp [hnone], rfl⟩
        · rename_i holdest
          exact ⟨by simp [holdest, CallBuffer.record], rfl⟩
      refine ⟨(advances_completeOldest d s).trans hadvances, hflights.trans ?_,
        hpending.trans holdest.2⟩
      rw [holdest.1, List.drop_drop, Nat.add_comm]

/-- Once nothing is underway, the statuses of a buffer are those of the rows from `handed` on. -/
theorem keys_of_covers {b : CallBuffer} (h : b.Covers handed) (hle : handed ≤ b.nextSeq)
    (hflights : b.inFlight = []) (hpending : b.pending = []) :
    ∃ count, b.completed.keys = List.range' handed count ∧ handed + count = b.nextSeq := by
  refine ⟨b.nextSeq - handed, keys_eq_range' fun n => ?_, by omega⟩
  have hn := h n
  simp only [CallBuffer.underway, hflights, hpending, List.flatMap_nil, List.map_nil,
    List.append_nil, List.not_mem_nil, or_false] at hn
  rw [hn]
  omega

variable (d) in
/-- Closing an open buffer sends for the last time, waits for every flush and hands out the rest. -/
theorem close_of_open (hopen : s.buffer.closed = false) :
    close d s =
      let left := completeAll d (sendLast d { s with buffer := { s.buffer with closed := true } })
      drain { left with monitor := left.monitor.bufferClosed } := by
  unfold Buffering.close
  rw [if_neg (by simp [hopen])]
  rfl

/-- **What closing hands out** are the numbers of all rows that are left. -/
theorem Open.close (h : s.Open handed settled) :
    ∃ count, (close d s).1.map RowStatus.seq = List.range' handed count ∧
      handed + count = (close d s).2.buffer.nextSeq ∧
      (close d s).2.buffer.nextSeq = s.buffer.nextSeq ∧ (close d s).2.buffer.closed = true := by
  let s₁ : Buffering ω := { s with buffer := { s.buffer with closed := true } }
  have hcovers : s₁.buffer.Covers handed := h.accounts.covers
  have hle : handed ≤ s.buffer.nextSeq := by
    obtain ⟨count, -, hnext⟩ := h.accounts.underway
    have hle := h.accounts.le
    omega
  have hcovers := covers_sendLast (d := d) hcovers
  obtain ⟨hpending, hnext, hclosed⟩ := sendLast_spec d s₁
  obtain ⟨hadvances, hflights, hkept⟩ := completeAllWithin_spec (d := d) (s := sendLast d s₁)
    (sendLast d s₁).buffer.inFlight.length
  rw [List.drop_length] at hflights
  have hnext' : (completeAll d (sendLast d s₁)).buffer.nextSeq = s.buffer.nextSeq :=
    hadvances.nextSeq_eq.trans hnext
  obtain ⟨count, hkeys, hcount⟩ := keys_of_covers (hadvances.covers hcovers) (hnext' ▸ hle) hflights
    (hkept.trans hpending)
  rw [close_of_open d h.closed]
  refine ⟨count, ?_, hcount, hnext', hadvances.closed_eq.trans hclosed⟩
  exact (CallBuffer.map_seq_drain _).trans hkeys

/-- A buffer that has just been opened has no rows. -/
theorem open_opening (destination : String) (txn : View) (limits : BufferLimits)
    (policy : Backpressure) (monitor : Monitor) (world : ω) :
    Open { buffer := (CallBuffer.opening destination txn limits policy monitor).1,
           monitor := (CallBuffer.opening destination txn limits policy monitor).2,
           world } 0 0 where
  closed := rfl
  accounts := ⟨Nat.le_refl 0, by simp [CallBuffer.opening], 0, rfl, rfl⟩

/-- **Every submitted row gets exactly one status, in order of submission.**  For every hook and every
way in which flushes are taken and end, all limits and either policy: the rows that a buffer hands out
along a list of operations, and then when it is closed, are numbered `0, 1, …` up to the number of
submitted rows, which closing leaves as it is; and closing again hands out nothing and changes nothing.  A
buffer that is dropped is closed.

Every row that is submitted up to then takes the next number, whether or not its submission fails.  Of
several rows that are submitted at once, all do if there is no error; if there is one, those up to and with
the row that fails do, and the others are not submitted.  Flushing and collecting take no number. -/
theorem statuses_in_order (d : Delivery ω) (destination : String) (txn : View)
    (limits : BufferLimits) (policy : Backpressure) (monitor : Monitor) (world : ω)
    (calls : List BufferCall) :
    let opened := CallBuffer.opening destination txn limits policy monitor
    let ran := runCalls d { buffer := opened.1, monitor := opened.2, world } calls
    let closed := close d ran.2
    (ran.1 ++ closed.1).map RowStatus.seq = List.range closed.2.buffer.nextSeq ∧
      closed.2.buffer.nextSeq = ran.2.buffer.nextSeq ∧
      (∀ row, (add d ran.2 row).2.buffer.nextSeq = ran.2.buffer.nextSeq + 1 ∧
        ∀ n, (add d ran.2 row).1 = .ok n → n = ran.2.buffer.nextSeq) ∧
      (∀ rows, (addEach d ran.2 rows).buffer.nextSeq = ran.2.buffer.nextSeq + rows.length ∧
        ((addAll d ran.2 rows = (.ok (), addEach d ran.2 rows) ∧ Numbered d ran.2 rows) ∨
          ∃ before row rest e, rows = before ++ row :: rest ∧ Numbered d ran.2 before ∧
            (add d (addEach d ran.2 before) row).1 = .error e ∧
            addAll d ran.2 rows = (.error e, addEach d ran.2 (before ++ [row])))) ∧
      (flush d ran.2).2.buffer.nextSeq = ran.2.buffer.nextSeq ∧
      (takeCompleted d ran.2).2.buffer.nextSeq = ran.2.buffer.nextSeq ∧
      close d closed.2 = ([], closed.2) ∧ drop d ran.2 = closed.2 := by
  intro opened ran closed
  have hopening := open_opening destination txn limits policy monitor world
  obtain ⟨count, settled, hrows, hopen⟩ := hopening.runCalls (d := d) calls
  obtain ⟨left, hlast, htotal, hnext, hclosed⟩ := hopen.close (d := d)
  rw [Nat.zero_add] at hlast htotal
  refine ⟨?_, hnext, fun row => ?_, fun rows => ⟨hopen.nextSeq_addEach rows, hopen.addAll_cases rows⟩,
    (advances_flush d ran.2).nextSeq_eq, (advances_reap d ran.2).nextSeq_eq, ?_, rfl⟩
  · rw [List.map_append, hrows, hlast, ← htotal, List.range_eq_range', ← List.range'_append_1,
      Nat.zero_add]
  · obtain ⟨hadvances, hanswer⟩ := advances_add d ran.2 hopen.closed row
    exact ⟨hadvances.nextSeq_eq, hanswer⟩
  · rw [close, if_pos hclosed]

end Buffering

end Multiversion
