import Multiversion.Proofs.Log.CompleteFrames
import Multiversion.Proofs.Store.Calls

/-!
# Recovery after a crash

A store is called any number of times, each time with its own clock reading, and the device takes each
record whole or refuses it.  Opening the first bytes of the log that this leaves, cut anywhere, gives
the store as it was after the last change whose frame was not cut.

* `Store.attempt_cases` — what one call does to the ledger and to the log;
* `Store.logged_runAttempts` — the log of a run is the frames of the records that were applied;
* `Store.Logged.take_bytes` — such a log cut anywhere;
* `Store.openOn_take` — opening it.
-/

namespace Multiversion

/-- One call on a store. -/
structure Attempt where
  now : Millis
  -- Whether the device refuses to take a record.
  refused : Bool
  change : Change

namespace Store

/-- One call and its answer. -/
def attempt (s : Store) (a : Attempt) : Except TxnError Bool × Store :=
  let device := { s.log.device with faults := { append := a.refused } }
  { s with log := { s.log with device } }.submit a.now a.change

/-- The store after a list of calls. -/
def runAttempts (s : Store) : List Attempt → Store
  | [] => s
  | a :: rest => (s.attempt a).2.runAttempts rest

/-- The store after each accepted change of a list of calls. -/
def accepted (s : Store) : List Attempt → List Store
  | [] => []
  | a :: rest =>
      match s.attempt a with
      | (.ok true, s') => s' :: s'.accepted rest
      | (_, s') => s'.accepted rest

/-- **What one call does.**  An accepted change is one record on the log and in the ledger; any other
answer leaves both as they were. -/
theorem attempt_cases {s : Store} (hopen : s.log.device.closed = false) (a : Attempt) :
    ∃ answer s', s.attempt a = (answer, s') ∧ s'.log.device.closed = false ∧
      ((answer = .ok true ∧ ∃ r, s.Appends r s') ∨
        (answer ≠ .ok true ∧ s'.ledger = s.ledger ∧ s'.log.device.bytes = s.log.device.bytes)) := by
  -- The device fails in one way only, which leaves nothing behind.
  obtain ⟨answer, s', hcall, hopen', houtcome⟩ :=
    outcome_call hopen { now := a.now, faults := { append := a.refused }, change := a.change }
  refine ⟨answer, s', hcall, hopen', ?_⟩
  cases houtcome with
  | accepted hok _ happends => exact .inl ⟨hok, _, happends⟩
  | unchanged hrefused hledger hbytes => exact .inr ⟨hrefused, hledger, hbytes⟩
  | torn _ _ _ htear => simp at htear
  | unsynced _ _ _ hsync => simp at hsync

/-- A store that has applied records one after the other, with the store after each. -/
inductive Logged : Store → List LogRecord → List Store → Prop
  | nil {s : Store} : Logged s [] []
  | cons {s s' : Store} {r : LogRecord} {rs : List LogRecord} {later : List Store}
      (first : s.Appends r s') (rest : Logged s' rs later) : Logged s (r :: rs) (s' :: later)

namespace Logged

variable {s t : Store} {rs : List LogRecord} {later : List Store}

/-- Only the ledger and the log of the first store matter. -/
theorem congr (h : Logged s rs later) (hledger : s.ledger = t.ledger)
    (hbytes : s.log.device.bytes = t.log.device.bytes) : Logged t rs later := by
  cases h with
  | nil => exact .nil
  | cons first rest =>
      refine .cons ⟨first.fits, ?_, ?_⟩ rest
      · rw [← hledger]
        exact first.apply
      · rw [← hbytes]
        exact first.bytes

theorem fits (h : Logged s rs later) : ∀ r ∈ rs, r.payload.length < 4294967296 := by
  induction h with
  | nil => simp
  | cons first _ ih =>
      intro r hr
      rcases List.mem_cons.1 hr with rfl | hr
      · exact first.fits
      · exact ih r hr

theorem length_eq (h : Logged s rs later) : rs.length = later.length := by
  induction h with
  | nil => rfl
  | cons _ _ ih => rw [List.length_cons, List.length_cons, ih]

theorem size_le (h : Logged s rs later) : ∀ t ∈ later, s.log.size ≤ t.log.size := by
  induction h with
  | nil => simp
  | cons first _ ih =>
      have hfirst := first.size_eq
      intro t ht
      rcases List.mem_cons.1 ht with rfl | ht
      · omega
      · have hlater := ih t ht
        omega

theorem size_le_last (h : Logged s rs later) :
    ∀ t ∈ later, t.log.size ≤ (s.log.device.bytes ++ rs.flatMap Frame.ofRecord).length := by
  induction h with
  | nil => simp
  | cons first _ ih =>
      rw [List.flatMap_cons, ← List.append_assoc, ← first.bytes]
      intro t ht
      rcases List.mem_cons.1 ht with rfl | ht
      · rw [List.length_append]
        exact Nat.le_add_right _ _
      · exact ih t ht

/-- The ledger and the log after the first `j` records. -/
theorem after (h : Logged s rs later) {j : Nat} (hj : j ≤ later.length) :
    ∃ past, (s :: later)[j]? = some past ∧
      past.log.device.bytes = s.log.device.bytes ++ (rs.take j).flatMap Frame.ofRecord ∧
      s.ledger.replay (rs.take j) = .ok past.ledger := by
  induction h generalizing j with
  | nil =>
      obtain rfl : j = 0 := Nat.le_zero.1 hj
      exact ⟨_, rfl, (List.append_nil _).symm, rfl⟩
  | @cons s s' r rs later first rest ih =>
      cases j with
      | zero => exact ⟨s, rfl, (List.append_nil _).symm, rfl⟩
      | succ j =>
          obtain ⟨past, hpast, hbytes, hreplay⟩ := ih (Nat.le_of_succ_le_succ hj)
          refine ⟨past, hpast, ?_, ?_⟩
          · rw [hbytes, first.bytes, List.take_succ_cons, List.flatMap_cons, List.append_assoc]
          · rw [List.take_succ_cons, Ledger.replay, first.apply]
            exact hreplay

/-- **A log cut anywhere** is the frames that end before the cut, and then something that is no
frame. -/
theorem take_bytes (h : Logged s rs later) {k : Nat} (hk : s.log.size ≤ k) :
    ∃ tail, (∀ offset, Frame.next offset tail = .ok none) ∧
      (s.log.device.bytes ++ rs.flatMap Frame.ofRecord).take k =
        s.log.device.bytes ++
          ((rs.take (later.countP (·.log.size ≤ k))).flatMap Frame.ofRecord ++ tail) := by
  induction h with
  | @nil s =>
      have hall : s.log.device.bytes.take k = s.log.device.bytes := List.take_of_length_le hk
      exact ⟨[], Frame.next_nil, by simp [hall]⟩
  | @cons s s' r rs later first rest ih =>
      by_cases hwhole : s'.log.size ≤ k
      · -- The first frame is whole: the cut is in what follows it.
        obtain ⟨tail, htail, hcut⟩ := ih hwhole
        refine ⟨tail, htail, ?_⟩
        rw [List.countP_cons_of_pos (by simpa using hwhole), List.take_succ_cons, List.flatMap_cons,
          List.flatMap_cons, ← List.append_assoc, ← first.bytes, hcut, first.bytes]
        simp only [List.append_assoc]
      · -- The cut is inside the first frame, so no later one is whole either.
        have hnone : (s' :: later).countP (·.log.size ≤ k) = 0 := by
          rw [List.countP_eq_zero]
          intro t ht
          have : s'.log.size ≤ t.log.size := by
            rcases List.mem_cons.1 ht with rfl | ht
            · exact Nat.le_refl _
            · exact rest.size_le t ht
          simp
          omega
        have hsize := first.size_eq
        have hbefore : s.log.device.bytes.take k = s.log.device.bytes := List.take_of_length_le hk
        have hinside : k - s.log.device.bytes.length < (Frame.ofRecord r).length := by
          show k - s.log.size < _
          omega
        refine ⟨(Frame.ofRecord r).take (k - s.log.device.bytes.length), fun offset => ?_, ?_⟩
        · exact Frame.next_of_lt offset first.fits hinside
        · rw [hnone, List.take_zero, List.flatMap_nil, List.nil_append, List.flatMap_cons,
            List.take_append, hbefore, List.take_append_of_le_length (Nat.le_of_lt hinside)]

end Logged

/-- **The log of a run** is the frames of the records that were applied, and their replay is what the
ledger holds. -/
theorem logged_runAttempts {s : Store} (hopen : s.log.device.closed = false)
    (attempts : List Attempt) :
    ∃ rs, Logged s rs (s.accepted attempts) ∧
      (s.runAttempts attempts).log.device.bytes =
        s.log.device.bytes ++ rs.flatMap Frame.ofRecord ∧
      s.ledger.replay rs = .ok (s.runAttempts attempts).ledger := by
  induction attempts generalizing s with
  | nil => exact ⟨[], .nil, (List.append_nil _).symm, rfl⟩
  | cons a rest ih =>
      obtain ⟨answer, s', hattempt, hopen', houtcome⟩ := attempt_cases hopen a
      obtain ⟨rs, hlogged, hbytes, hreplay⟩ := ih hopen'
      rcases houtcome with ⟨rfl, r, happends⟩ | ⟨hanswer, hledger, hsame⟩
      · refine ⟨r :: rs, ?_, ?_, ?_⟩
        · rw [accepted, hattempt]
          exact .cons happends hlogged
        · rw [runAttempts, hattempt, hbytes, happends.bytes, List.flatMap_cons, List.append_assoc]
        · rw [runAttempts, hattempt, Ledger.replay, happends.apply]
          exact hreplay
      · refine ⟨rs, ?_, ?_, ?_⟩
        · rw [accepted, hattempt]
          split
          · rename_i h
            cases h
            exact absurd rfl hanswer
          · rename_i h
            cases h
            exact hlogged.congr hledger hsame
        · rw [runAttempts, hattempt, hbytes, hsame]
        · rw [runAttempts, hattempt, ← hledger]
          exact hreplay

/-- Opening a log of whole frames, followed by something that is no frame. -/
theorem openOn_frames {device : Device} {rs : List LogRecord} {tail : Bytes} {ledger : Ledger}
    (config : StoreConfig) (hopen : device.closed = false) (hfaults : device.faults.truncate = false)
    (hfits : ∀ r ∈ rs, r.payload.length < 4294967296)
    (htail : ∀ offset, Frame.next offset tail = .ok none)
    (hbytes : device.bytes = rs.flatMap Frame.ofRecord ++ tail)
    (hreplay : Ledger.replay {} rs = .ok ledger) :
    ∃ store, openOn device config = (.ok store, store.log.device) ∧ store.ledger = ledger ∧
      store.log.device.bytes = rs.flatMap Frame.ofRecord ∧
      store.stats.replayedRecords = rs.length := by
  obtain ⟨records, hscan, hrecords⟩ := Frame.scan_frames 0 hfits htail
  rw [← hbytes, Nat.zero_add] at hscan
  obtain ⟨log, hrecover, hcut⟩ := Log.recover_of_scan
    (l := { device, syncOnWrite := config.syncOnCommit }) hopen hfaults hscan
  refine ⟨{ ledger, log, config, stats := { replayedRecords := records.length } }, ?_, rfl, ?_, ?_⟩
  · simp only [openOn, hrecover, hrecords, hreplay]
  · rw [hcut]
    show device.bytes.take _ = _
    rw [hbytes, List.take_left]
  · rw [← hrecords, List.length_map]

/-- Opening a device that holds these bytes gives a store with this ledger. -/
def Recovers (config : StoreConfig) (bytes : Bytes) (ledger : Ledger) : Prop :=
  ∃ store, openOn (.ofBytes bytes) config = (.ok store, store.log.device) ∧ store.ledger = ledger

theorem recovers_of_frames (config : StoreConfig) {bytes : Bytes} {rs : List LogRecord} {tail : Bytes}
    {ledger : Ledger} (hfits : ∀ r ∈ rs, r.payload.length < 4294967296)
    (htail : ∀ offset, Frame.next offset tail = .ok none)
    (hbytes : bytes = rs.flatMap Frame.ofRecord ++ tail) (hreplay : Ledger.replay {} rs = .ok ledger) :
    Recovers config bytes ledger := by
  obtain ⟨store, hopens, hledger, _⟩ := openOn_frames config rfl rfl hfits htail
    ((Device.bytes_ofBytes bytes).trans hbytes) hreplay
  exact ⟨store, hopens, hledger⟩

theorem Recovers.unique {config : StoreConfig} {bytes : Bytes} {ledger ledger' : Ledger}
    (h : Recovers config bytes ledger) (h' : Recovers config bytes ledger') : ledger = ledger' := by
  obtain ⟨store, hopens, rfl⟩ := h
  obtain ⟨store', hopens', rfl⟩ := h'
  have hsame := hopens.symm.trans hopens'
  simp only [Prod.mk.injEq, Except.ok.injEq] at hsame
  rw [hsame.1]

theorem openOn_empty (config : StoreConfig) : openOn {} config = (.ok (empty config), {}) := by
  have hscan : Frame.scan 0 ({} : Device).bytes = .ok ([], 0) := Frame.scan_of_next (Frame.next_nil 0)
  have hwhole : ¬ 0 < Device.size {} := Nat.lt_irrefl 0
  simp only [openOn, Log.recover, hscan, Log.size, hwhole, if_false]
  rfl

/-- **Recovery gives a prefix of the history.**  Calls are made on a store that was opened over an empty
device.  Opening the first `k` bytes of the log then succeeds, with the store as it was after its first
`j` accepted changes, where `j` is the number of frames that end within these bytes: its ledger, its
log and nothing more.  If nothing is cut off, this is the store as it is now. -/
theorem openOn_take (config config' : StoreConfig) (attempts : List Attempt) (k : Nat) :
    ∃ start, openOn {} config = (.ok start, {}) ∧
      ∃ past store,
        (start :: start.accepted attempts)[(start.accepted attempts).countP (·.log.size ≤ k)]? =
          some past ∧
        openOn (.ofBytes ((start.runAttempts attempts).log.device.bytes.take k)) config' =
          (.ok store, store.log.device) ∧
        store.ledger = past.ledger ∧
        store.log.device.bytes = past.log.device.bytes ∧
        store.log.device.bytes <+: (start.runAttempts attempts).log.device.bytes.take k ∧
        store.stats.replayedRecords = (start.accepted attempts).countP (·.log.size ≤ k) ∧
        ((start.runAttempts attempts).log.size ≤ k →
          store.ledger = (start.runAttempts attempts).ledger ∧
            store.log.device.bytes = (start.runAttempts attempts).log.device.bytes) := by
  refine ⟨empty config, openOn_empty config, ?_⟩
  obtain ⟨rs, hlogged, hbytes, hreplay⟩ := logged_runAttempts (s := empty config) rfl attempts
  obtain ⟨tail, htail, hcut⟩ := hlogged.take_bytes (Nat.zero_le k)
  obtain ⟨past, hpast, hpastBytes, hpastReplay⟩ :=
    hlogged.after (List.countP_le_length (p := (·.log.size ≤ k)))
  have hlength := hlogged.length_eq
  rw [← hbytes] at hcut
  generalize hcount : ((empty config).accepted attempts).countP (·.log.size ≤ k) = j at *
  obtain ⟨store, hopen, hledger, hstore, hreplayed⟩ := openOn_frames config' rfl rfl
    (fun r hr => hlogged.fits r (List.mem_of_mem_take hr)) htail
    ((Device.bytes_ofBytes _).trans hcut) hpastReplay
  refine ⟨past, store, hpast, hopen, hledger, hstore.trans hpastBytes.symm, ?_, ?_, fun hk => ?_⟩
  · rw [hcut, hstore]
    exact List.prefix_append _ _
  · rw [hreplayed, List.length_take, hlength, Nat.min_eq_left]
    exact hcount ▸ List.countP_le_length
  · -- Nothing is cut off, so every record is replayed.
    have hall : ∀ t ∈ (empty config).accepted attempts, (decide (t.log.size ≤ k)) = true := by
      intro t ht
      have hlast := hlogged.size_le_last t ht
      rw [← hbytes] at hlast
      exact decide_eq_true (Nat.le_trans hlast hk)
    have hj : rs.take j = rs := by
      rw [← hcount, List.countP_eq_length.2 hall, ← hlength, List.take_length]
    rw [hj] at hstore hpastReplay
    refine ⟨?_, hstore.trans hbytes.symm⟩
    rw [hledger]
    exact Except.ok.inj (hpastReplay.symm.trans hreplay)

end Store

end Multiversion
