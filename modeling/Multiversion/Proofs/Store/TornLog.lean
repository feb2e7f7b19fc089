import Multiversion.Proofs.Store.Recovery

/-!
# Torn appends

An append may fail after it has written the beginning of its frame, and the log keeps what was written.
The store stays in use, and its next frame is written behind the partial one.

* `Store.whole_runCalls` — up to the first partial frame the log is the frames of the applied records;
* `Store.written_runCalls` — what is written after it starts like a frame;
* `Store.recovers_of_contained`, `Store.recovers_of_within`, `Store.isCorrupt_of_short` — what
  opening such a log gives;
* `Store.reopen_torn` — all of it for every run;
* `not_recovers_of_torn` — acknowledged changes can be lost.
-/

namespace Multiversion

namespace Store

/-- In a run, syncs succeed, and an append that is torn leaves less than its frame. -/
def TearsOnly (s : Store) : List Call → Prop
  | [] => True
  | c :: rest =>
      (c.faults.sync = false ∧ ∀ r kept, s.ledger.decide c.now c.change = .ok (some r) →
        c.faults.tear = some kept → kept < (Frame.ofRecord r).length) ∧
      (s.call c).2.TearsOnly rest

/-- A call that leaves the ledger alone and has written something all the same. -/
def leavesPart (s : Store) (c : Call) : Bool :=
  !acknowledged (s.call c).1 && (s.call c).2.log.size ≠ s.log.size

/-- The first call of a run that leaves part of a frame, with the store that it was made on. -/
def firstTear? (s : Store) : List Call → Option (Store × Call)
  | [] => none
  | c :: rest => if s.leavesPart c then some (s, c) else (s.call c).2.firstTear? rest

/-- Opening a device that holds these bytes is refused: they are no log. -/
def IsCorrupt (config : StoreConfig) (bytes : Bytes) : Prop :=
  ∃ corruption, openOn (.ofBytes bytes) config =
    (.error (.logCorruption corruption), .ofBytes bytes)

variable {s t : Store} {c : Call}

theorem runCalls_append (s : Store) (before after : List Call) :
    s.runCalls (before ++ after) = (s.runCalls before).runCalls after := by
  induction before generalizing s with
  | nil => rfl
  | cons c rest ih => exact ih (s.call c).2

theorem tearsOnly_append (before after : List Call) :
    s.TearsOnly (before ++ after) ↔ s.TearsOnly before ∧ (s.runCalls before).TearsOnly after := by
  induction before generalizing s with
  | nil => simp [TearsOnly, runCalls]
  | cons c rest ih => simp only [List.cons_append, TearsOnly, runCalls, ih, and_assoc]

/-- A run up to its first partial frame. -/
theorem split_of_firstTear {calls : List Call} (h : s.firstTear? calls = some (t, c)) :
    ∃ before after, calls = before ++ c :: after ∧ s.firstTear? before = none ∧
      s.runCalls before = t ∧ t.leavesPart c = true := by
  induction calls generalizing s with
  | nil => simp [firstTear?] at h
  | cons d rest ih =>
      rw [firstTear?] at h
      split at h
      · rename_i hpart
        obtain ⟨rfl, rfl⟩ : s = t ∧ d = c := by simpa using h
        exact ⟨[], rest, rfl, rfl, rfl, hpart⟩
      · rename_i hwhole
        obtain ⟨before, after, rfl, hnone, ht, hpart⟩ := ih h
        refine ⟨d :: before, after, rfl, ?_, ht, hpart⟩
        rw [firstTear?, if_neg hwhole]
        exact hnone

theorem leavesPart_iff {answer : Except TxnError Bool} {s' : Store} (hcall : s.call c = (answer, s')) :
    s.leavesPart c = true ↔ answer ≠ .ok true ∧ s'.log.size ≠ s.log.size := by
  rw [leavesPart, hcall, Bool.and_eq_true, Bool.not_eq_true', ← Bool.not_eq_true, acknowledged_iff,
    decide_eq_true_eq]

/-- A call that leaves no partial frame appends a whole one, or nothing. -/
theorem whole_call {answer : Except TxnError Bool} {s' : Store} (hcall : s.call c = (answer, s'))
    (houtcome : s.Outcome c answer s') (hsync : c.faults.sync = false)
    (hwhole : ¬ s.leavesPart c = true) :
    (∃ r, s.Appends r s') ∨
      (s'.ledger = s.ledger ∧ s'.log.device.bytes = s.log.device.bytes) := by
  rw [leavesPart_iff hcall] at hwhole
  cases houtcome with
  | accepted _ _ happends => exact .inl ⟨_, happends⟩
  | unchanged _ hledger hbytes => exact .inr ⟨hledger, hbytes⟩
  | @torn r kept hrefused _ _ _ hledger hbytes =>
      have hsize : s'.log.size = s.log.size :=
        Classical.not_not.1 fun hne => hwhole ⟨hrefused, hne⟩
      have hlength := congrArg List.length hbytes
      rw [List.length_append] at hlength
      have hnothing : (Frame.ofRecord r).take kept = [] := by
        refine List.eq_nil_of_length_eq_zero ?_
        simp only [Log.size, ← Device.length_bytes] at hsize
        omega
      rw [hnothing, List.append_nil] at hbytes
      exact .inr ⟨hledger, hbytes⟩
  | unsynced _ _ _ hfails => simp [hsync] at hfails

/-- **Up to the first partial frame** the log is the frames of the records that were applied. -/
theorem whole_runCalls (hopen : s.log.device.closed = false) {calls : List Call}
    (htears : s.TearsOnly calls) (hnone : s.firstTear? calls = none) :
    (s.runCalls calls).log.device.closed = false ∧
      ∃ rs : List LogRecord, (∀ r ∈ rs, r.payload.length < 4294967296) ∧
        (s.runCalls calls).log.device.bytes = s.log.device.bytes ++ rs.flatMap Frame.ofRecord ∧
        s.ledger.replay rs = .ok (s.runCalls calls).ledger := by
  induction calls generalizing s with
  | nil => exact ⟨hopen, [], by simp, (List.append_nil _).symm, rfl⟩
  | cons c rest ih =>
      obtain ⟨⟨hsync, -⟩, hrest⟩ := htears
      rw [firstTear?] at hnone
      split at hnone
      · contradiction
      · rename_i hwhole
        obtain ⟨answer, s', hcall, hopen', houtcome⟩ := outcome_call hopen c
        rw [runCalls]
        rw [hcall] at hrest hnone ⊢
        obtain ⟨hclosed, rs, hfits, hbytes, hreplay⟩ := ih hopen' hrest hnone
        refine ⟨hclosed, ?_⟩
        rcases whole_call hcall houtcome hsync hwhole with ⟨r, happends⟩ | ⟨hledger, hsame⟩
        · refine ⟨r :: rs, List.forall_mem_cons.2 ⟨happends.fits, hfits⟩, ?_, ?_⟩
          · rw [hbytes, happends.bytes, List.flatMap_cons, List.append_assoc]
          · rw [Ledger.replay, happends.apply]
            exact hreplay
        · rw [hsame] at hbytes
          rw [hledger] at hreplay
          exact ⟨rs, hfits, hbytes, hreplay⟩

/-- **What a call writes** starts like a frame, and it is a whole frame if a change was accepted. -/
theorem Outcome.written {answer : Except TxnError Bool} {s' : Store} (h : s.Outcome c answer s') :
    ∃ more, s'.log.device.bytes = s.log.device.bytes ++ more ∧ Frame.Begun more ∧
      (more.length < Frame.headerSize + Frame.checksumSize → s'.ledger = s.ledger) := by
  cases h with
  | @accepted r _ _ happends =>
      refine ⟨_, happends.bytes, Frame.begun_ofRecord r, fun hshort => ?_⟩
      rw [Frame.length_ofRecord] at hshort
      omega
  | unchanged _ hledger hbytes =>
      exact ⟨[], hbytes.trans (List.append_nil _).symm, Frame.begun_nil, fun _ => hledger⟩
  | @torn r kept _ _ _ _ hledger hbytes =>
      exact ⟨_, hbytes, Frame.begun_take_ofRecord r kept, fun _ => hledger⟩
  | @unsynced r _ _ _ _ hledger hbytes => exact ⟨_, hbytes, Frame.begun_ofRecord r, fun _ => hledger⟩

/-- **What a run writes** starts like a frame, and as long as it is shorter than any frame no change
was accepted. -/
theorem written_runCalls (hopen : s.log.device.closed = false) (calls : List Call) :
    ∃ more, (s.runCalls calls).log.device.bytes = s.log.device.bytes ++ more ∧ Frame.Begun more ∧
      (more.length < Frame.headerSize + Frame.checksumSize →
        (s.runCalls calls).ledger = s.ledger) := by
  induction calls generalizing s with
  | nil => exact ⟨[], (List.append_nil _).symm, Frame.begun_nil, fun _ => rfl⟩
  | cons c rest ih =>
      obtain ⟨answer, s', hcall, hopen', houtcome⟩ := outcome_call hopen c
      obtain ⟨first, hfirst, hbegun, hsame⟩ := houtcome.written
      obtain ⟨more, hmore, hbegun', hsame'⟩ := ih hopen'
      rw [runCalls, hcall]
      refine ⟨first ++ more, by rw [hmore, hfirst, List.append_assoc], hbegun.append hbegun',
        fun hshort => ?_⟩
      rw [List.length_append] at hshort
      exact (hsame' (by omega)).trans (hsame (by omega))

/-- A log with a partial frame in it, which a call has left on the store `t`: the frames before it,
what there is of it, and what was written behind it. -/
structure TornLog (t : Store) (c : Call) (live : Store) (rs : List LogRecord) (r : LogRecord)
    (kept : Nat) (more : Bytes) : Prop where
  fits : ∀ x ∈ r :: rs, x.payload.length < 4294967296
  replay : Ledger.replay {} rs = .ok t.ledger
  before : t.log.device.bytes = rs.flatMap Frame.ofRecord
  decided : t.ledger.decide c.now c.change = .ok (some r)
  pos : 0 < kept
  part : kept < (Frame.ofRecord r).length
  left : (t.call c).2.log.size = t.log.size + kept
  bytes : live.log.device.bytes = t.log.device.bytes ++ ((Frame.ofRecord r).take kept ++ more)
  begun : Frame.Begun more
  same : more.length < Frame.headerSize + Frame.checksumSize → live.ledger = t.ledger

theorem exists_tornLog {config : StoreConfig} {calls : List Call}
    (htears : (empty config).TearsOnly calls) (hfirst : (empty config).firstTear? calls = some (t, c)) :
    ∃ rs r kept more, TornLog t c ((empty config).runCalls calls) rs r kept more := by
  obtain ⟨before, after, rfl, hnone, rfl, hpart⟩ := split_of_firstTear hfirst
  obtain ⟨hbefore, ⟨hsync, hproper⟩, -⟩ := (tearsOnly_append before _).1 htears
  obtain ⟨hopen, rs, hfits, hbytes, hreplay⟩ := whole_runCalls rfl hbefore hnone
  generalize ht : (empty config).runCalls before = t at *
  obtain ⟨answer, s', hcall, hopen', houtcome⟩ := outcome_call hopen c
  obtain ⟨hrefused, hsize⟩ := (leavesPart_iff hcall).1 hpart
  -- Only a torn append has written something without being acknowledged.
  cases houtcome with
  | accepted hok _ _ => exact absurd hok hrefused
  | unchanged _ _ hsame => exact absurd (congrArg List.length hsame) hsize
  | unsynced _ _ _ hfails => simp [hsync] at hfails
  | @torn r kept _ hdecided hr htear hledger hleft =>
      obtain ⟨more, hmore, hbegun, hsame⟩ := written_runCalls hopen' after
      have hproper := hproper r kept hdecided htear
      have hlength : s'.log.size = t.log.size + kept := by
        have h := congrArg List.length hleft
        rw [List.length_append, List.length_take, Nat.min_eq_left (Nat.le_of_lt hproper)] at h
        exact h
      refine ⟨rs, r, kept, more, List.forall_mem_cons.2 ⟨hr, hfits⟩, hreplay, hbytes, hdecided, ?_,
        hproper, by rw [hcall, hlength], ?_, hbegun, fun hshort => ?_⟩
      · omega
      · rw [runCalls_append, ht, runCalls, hcall, hmore, hleft, List.append_assoc]
      · rw [runCalls_append, ht, runCalls, hcall, hsame hshort, hledger]

namespace TornLog

variable {live : Store} {rs : List LogRecord} {r : LogRecord} {kept : Nat} {more : Bytes}

theorem size_eq (h : TornLog t c live rs r kept more) :
    live.log.size = t.log.size + kept + more.length := by
  have hlength := congrArg List.length h.bytes
  rw [List.length_append, List.length_append, List.length_take,
    Nat.min_eq_left (Nat.le_of_lt h.part), ← Nat.add_assoc] at hlength
  exact hlength

/-- A partial frame that is no frame is cut off, with everything behind it. -/
theorem recovers (h : TornLog t c live rs r kept more) (config : StoreConfig)
    (htail : ∀ offset, Frame.next offset ((Frame.ofRecord r).take kept ++ more) = .ok none) :
    Recovers config live.log.device.bytes t.ledger :=
  recovers_of_frames config (fun x hx => h.fits x (List.mem_cons_of_mem _ hx)) htail
    (by rw [h.bytes, h.before]) h.replay

/-- **Nothing was written behind the partial frame**: opening the log gives the live ledger. -/
theorem recovers_of_contained (h : TornLog t c live rs r kept more) (config : StoreConfig)
    (hcontained : live.log.size = (t.call c).2.log.size) :
    Recovers config live.log.device.bytes live.ledger := by
  have hnone : more = [] := by
    refine List.eq_nil_of_length_eq_zero ?_
    rw [h.size_eq, h.left] at hcontained
    omega
  rw [h.same (by rw [hnone]; decide)]
  refine h.recovers config fun offset => ?_
  rw [hnone, List.append_nil]
  exact Frame.next_of_lt offset (h.fits r List.mem_cons_self) h.part

/-- **The log ends within a header's length of the tear**: the same holds. -/
theorem recovers_of_near (h : TornLog t c live rs r kept more) (config : StoreConfig)
    (hnear : live.log.size < t.log.size + Frame.headerSize) :
    Recovers config live.log.device.bytes live.ledger := by
  rw [h.size_eq] at hnear
  rw [h.same (by omega)]
  refine h.recovers config fun offset => ?_
  rw [Frame.next, if_pos]
  rw [List.length_append, List.length_take]
  omega

/-- How much of the log belongs to a torn frame, as its header reads after the tear: the frame itself,
or far more if the header is not whole. -/
def reach (r : LogRecord) (kept : Nat) : Nat :=
  if kept < Frame.headerSize then 1073741824 else (Frame.ofRecord r).length

/-- **The log ends within the reach of the torn frame**: what was accepted since the tear is cut off
with it. -/
theorem recovers_of_within (h : TornLog t c live rs r kept more) (config : StoreConfig)
    (htype : 7 ≤ kept) (hwithin : live.log.size < t.log.size + reach r kept) :
    Recovers config live.log.device.bytes t.ledger := by
  have hlength : ((Frame.ofRecord r).take kept ++ more).length < reach r kept := by
    rw [h.size_eq] at hwithin
    rw [List.length_append, List.length_take, Nat.min_eq_left (Nat.le_of_lt h.part)]
    omega
  refine h.recovers config fun offset => ?_
  unfold reach at hlength
  split at hlength
  · rename_i hpart
    exact Frame.next_tornLength offset r htype hpart h.begun hlength
  · rename_i hheader
    exact Frame.next_torn offset (h.fits r List.mem_cons_self) (Nat.le_of_not_lt hheader) hlength

/-- **A frame torn before its record type, and a header's length of log after the tear**: the log
cannot be opened any more. -/
theorem isCorrupt_of_short (h : TornLog t c live rs r kept more) (config : StoreConfig)
    (hshort : kept < 7) (hfar : t.log.size + Frame.headerSize ≤ live.log.size) :
    IsCorrupt config live.log.device.bytes := by
  rw [h.size_eq] at hfar
  -- Something was written behind the partial frame, and its first byte is known.
  rcases h.begun.first with rfl | ⟨rest, rfl⟩
  · simp only [List.length_nil, Frame.headerSize] at hfar
    omega
  · have hlength : Frame.headerSize ≤ ((Frame.ofRecord r).take kept ++ 0x53 :: rest).length := by
      rw [List.length_append, List.length_take, Nat.min_eq_left (Nat.le_of_lt h.part)]
      omega
    obtain ⟨corruption, hnext⟩ :=
      Frame.next_shortTear (0 + (rs.flatMap Frame.ofRecord).length) h.pos hshort hlength
    have hscan := Frame.scan_frames_error 0 (fun x hx => h.fits x (List.mem_cons_of_mem _ hx)) hnext
    refine ⟨corruption, ?_⟩
    rw [openOn, Log.recover]
    simp only [Device.bytes_ofBytes]
    rw [h.bytes, h.before, hscan]

end TornLog

/-- **Opening a log after torn appends.**  Calls are made on a store that was opened over an empty
device, and any append may be torn.  If none leaves part of a frame, opening the log gives the live
ledger.  Otherwise let the first one that does keep `kept` bytes of its frame:

* as long as nothing was written behind them, opening the log gives the live ledger, so every
  acknowledged change is there;
* if the record type was torn off, the log can be opened as long as it ends within a header's length of
  the tear, and from then on it is refused as corrupt;
* if it was not, opening the log gives the ledger as it was before the tear, as long as the log ends
  within the reach of the torn frame: what was acknowledged since is lost. -/
theorem reopen_torn (config config' : StoreConfig) (calls : List Call)
    (htears : (empty config).TearsOnly calls) :
    let live := (empty config).runCalls calls
    ((empty config).firstTear? calls = none →
      Recovers config' live.log.device.bytes live.ledger) ∧
    ∀ t c, (empty config).firstTear? calls = some (t, c) →
      ∃ r kept, t.ledger.decide c.now c.change = .ok (some r) ∧ 0 < kept ∧
        kept < (Frame.ofRecord r).length ∧ (t.call c).2.log.size = t.log.size + kept ∧
        (live.log.size = t.log.size + kept → Recovers config' live.log.device.bytes live.ledger) ∧
        (kept < 7 →
          (live.log.size < t.log.size + Frame.headerSize →
            Recovers config' live.log.device.bytes live.ledger) ∧
          (t.log.size + Frame.headerSize ≤ live.log.size →
            IsCorrupt config' live.log.device.bytes)) ∧
        (7 ≤ kept → live.log.size < t.log.size + TornLog.reach r kept →
          Recovers config' live.log.device.bytes t.ledger) := by
  intro live
  refine ⟨fun hnone => ?_, fun t c hfirst => ?_⟩
  · obtain ⟨-, rs, hfits, hbytes, hreplay⟩ := whole_runCalls rfl htears hnone
    exact recovers_of_frames config' hfits Frame.next_nil (by rw [List.append_nil]; exact hbytes) hreplay
  · obtain ⟨rs, r, kept, more, h⟩ := exists_tornLog htears hfirst
    refine ⟨r, kept, h.decided, h.pos, h.part, h.left, fun hcontained => ?_, fun hshort => ?_,
      h.recovers_of_within config'⟩
    · exact h.recovers_of_contained config' (hcontained.trans h.left.symm)
    · exact ⟨h.recovers_of_near config', h.isCorrupt_of_short config' hshort⟩

end Store

namespace TornBegin

/-- Three transactions are recorded; three bytes of the second record are written, and the call is not
acknowledged. -/
def calls : List Call :=
  [{ change := .begin { id := ⟨1⟩, begin := ⟨1⟩ } },
    { faults := { tear := some 3 }, change := .begin { id := ⟨2⟩, begin := ⟨2⟩ } },
    { change := .begin { id := ⟨3⟩, begin := ⟨3⟩ } }]

theorem tearsOnly : (Store.empty {}).TearsOnly calls := by
  have hproper : ∀ (r : LogRecord) (kept : Nat), kept ≤ 3 → kept < (Frame.ofRecord r).length := by
    intro r kept hkept
    rw [Frame.length_ofRecord, Frame.headerSize]
    omega
  refine ⟨⟨rfl, fun r kept _ htear => ?_⟩, ⟨rfl, fun r kept _ htear => ?_⟩,
    ⟨rfl, fun r kept _ htear => ?_⟩, trivial⟩
  · cases htear
  · cases htear
    exact hproper r 3 (Nat.le_refl 3)
  · cases htear

/-- The log goes on, more than a header's length beyond the tear. -/
theorem firstTear : ∃ t c, (Store.empty {}).firstTear? calls = some (t, c) ∧
    (t.call c).2.log.size = t.log.size + 3 ∧
    t.log.size + Frame.headerSize ≤ ((Store.empty {}).runCalls calls).log.size := by
  have hall : ((Store.empty {}).firstTear? calls).any (fun (t, c) =>
      (t.call c).2.log.size = t.log.size + 3 ∧
        t.log.size + Frame.headerSize ≤ ((Store.empty {}).runCalls calls).log.size) = true := by
    decide +kernel
  cases hfirst : (Store.empty {}).firstTear? calls with
  | none => simp [hfirst] at hall
  | some tear =>
      rw [hfirst] at hall
      exact ⟨tear.1, tear.2, rfl, of_decide_eq_true hall⟩

end TornBegin

/-- The outcome of a run in which a torn append was followed by another one. -/
theorem reopen_torn_begin :
    (Store.empty {}).TearsOnly TornBegin.calls ∧
      Store.IsCorrupt {} ((Store.empty {}).runCalls TornBegin.calls).log.device.bytes := by
  obtain ⟨t, c, hfirst, hleft, hfar⟩ := TornBegin.firstTear
  obtain ⟨r, kept, -, -, -, hkept, -, hshort, -⟩ :=
    (Store.reopen_torn {} {} TornBegin.calls TornBegin.tearsOnly).2 t c hfirst
  obtain rfl : kept = 3 := Nat.add_left_cancel (hkept.symm.trans hleft)
  exact ⟨TornBegin.tearsOnly, (hshort (by decide)).2 hfar⟩

/-- **Acknowledged changes can be lost** after a torn append: the log cannot be opened any more. -/
theorem not_recovers_of_torn :
    ¬ ∀ (config config' : StoreConfig) (calls : List Call), (Store.empty config).TearsOnly calls →
      Store.Recovers config' ((Store.empty config).runCalls calls).log.device.bytes
        ((Store.empty config).runCalls calls).ledger := by
  intro hrecovers
  obtain ⟨store, hopens, -⟩ := hrecovers {} {} TornBegin.calls TornBegin.tearsOnly
  obtain ⟨t, c, hfirst, hleft, hfar⟩ := TornBegin.firstTear
  obtain ⟨rs, r, kept, more, h⟩ := Store.exists_tornLog TornBegin.tearsOnly hfirst
  obtain rfl : kept = 3 := Nat.add_left_cancel (h.left.symm.trans hleft)
  obtain ⟨corruption, hcorrupt⟩ := h.isCorrupt_of_short {} (by decide) hfar
  cases hopens.symm.trans hcorrupt

end Multiversion
