import Multiversion.Proofs.Log.FrameScan
import Multiversion.Proofs.Store.Records

/-!
# Calls on a store whose device may fail

One call is a request together with the clock reading and with what the device does wrong while the
call lasts.  What it can do is said once:

* `Log.append_cases` — what an append leaves on the device;
* `Store.Outcome` — the four ways in which a call can end;
* `Store.outcome_call` — every call ends in one of them.

A call that is acknowledged puts one frame on the log and applies its record.  A call that is not
leaves the ledger alone, but it can leave bytes on the log: the beginning of a frame, or a whole frame
that was not synced.
-/

namespace Multiversion

namespace Log

/-- **What an append leaves on the device**: the frame if it succeeds; and if it fails nothing, what
was written before the append was torn, or the whole frame if only the sync has failed. -/
theorem append_cases {l : Log} (hopen : l.device.closed = false) (r : LogRecord) :
    ∃ answer l', l.append r = (answer, l') ∧ l'.device.closed = false ∧
      ((∃ offset, answer = .ok offset ∧ r.payload.length < 4294967296 ∧
          l'.device.bytes = l.device.bytes ++ Frame.ofRecord r) ∨
        (∃ e, answer = .error e) ∧
          (l'.device.bytes = l.device.bytes ∨
            r.payload.length < 4294967296 ∧
              ((∃ kept, l.device.faults.tear = some kept ∧
                  l'.device.bytes = l.device.bytes ++ (Frame.ofRecord r).take kept) ∨
                (l.device.faults.sync = true ∧
                  l'.device.bytes = l.device.bytes ++ Frame.ofRecord r)))) := by
  unfold append Frame.encode
  by_cases hfits : r.payload.length < 4294967296
  · rw [if_pos hfits]
    unfold Device.append
    cases hrefused : l.device.faults.append with
    | true =>
        simp only [Bool.or_true, if_true]
        exact ⟨_, _, rfl, hopen, .inr ⟨⟨_, rfl⟩, .inl rfl⟩⟩
    | false =>
        simp only [hopen, Bool.or_false, Bool.false_eq_true, if_false]
        cases htear : l.device.faults.tear with
        | some kept =>
            exact ⟨_, _, rfl, hopen,
              .inr ⟨⟨_, rfl⟩, .inr ⟨hfits, .inl ⟨kept, rfl, Device.bytes_extend _ _⟩⟩⟩⟩
        | none =>
            cases hsync : l.syncOnWrite with
            | false =>
                exact ⟨_, _, rfl, hopen, .inl ⟨_, rfl, hfits, Device.bytes_extend _ _⟩⟩
            | true =>
                have hclosed : (l.device.extend (Frame.ofRecord r)).closed = false := hopen
                cases hfails : l.device.faults.sync with
                | true =>
                    have hfails' : (l.device.extend (Frame.ofRecord r)).faults.sync = true := hfails
                    simp only [if_true, Device.sync, hclosed, hfails', Bool.or_true]
                    exact ⟨_, _, rfl, hclosed,
                      .inr ⟨⟨_, rfl⟩, .inr ⟨hfits, .inr ⟨trivial, Device.bytes_extend _ _⟩⟩⟩⟩
                | false =>
                    have hfails' : (l.device.extend (Frame.ofRecord r)).faults.sync = false := hfails
                    simp only [if_true, Device.sync, hclosed, hfails', Bool.or_false,
                      Bool.false_eq_true, if_false]
                    exact ⟨_, _, rfl, hclosed, .inl ⟨_, rfl, hfits, Device.bytes_extend _ _⟩⟩
  · rw [if_neg hfits]
    exact ⟨_, _, rfl, hopen, .inr ⟨⟨_, rfl⟩, .inl rfl⟩⟩

end Log

/-- One call on a store. -/
structure Call where
  now : Millis := 0
  -- What the device does wrong while the call lasts.
  faults : Faults := {}
  change : Change

namespace Store

/-- A store that has written a record to its log and applied it. -/
structure Appends (s : Store) (r : LogRecord) (s' : Store) : Prop where
  fits : r.payload.length < 4294967296
  apply : s.ledger.apply r = .ok s'.ledger
  bytes : s'.log.device.bytes = s.log.device.bytes ++ Frame.ofRecord r

theorem Appends.size_eq {s s' : Store} {r : LogRecord} (h : s.Appends r s') :
    s'.log.size = s.log.size + (Frame.ofRecord r).length :=
  (congrArg List.length h.bytes).trans List.length_append

/-- One call and its answer. -/
def call (s : Store) (c : Call) : Except TxnError Bool × Store :=
  { s with log := { s.log with device := { s.log.device with faults := c.faults } } }.submit
    c.now c.change

/-- The store after a list of calls. -/
def runCalls (s : Store) : List Call → Store
  | [] => s
  | c :: rest => (s.call c).2.runCalls rest

/-- Whether a call was answered with success and has changed something. -/
def acknowledged : Except TxnError Bool → Bool
  | .ok changed => changed
  | .error _ => false

theorem acknowledged_iff {answer : Except TxnError Bool} :
    acknowledged answer = true ↔ answer = .ok true := by
  cases answer <;> simp [acknowledged]

/-- How a call can end.  In the last two cases the append has failed after it had written something. -/
inductive Outcome (s : Store) (c : Call) (answer : Except TxnError Bool) (s' : Store) : Prop
  | accepted {r : LogRecord} (ok : answer = .ok true)
      (decided : s.ledger.decide c.now c.change = .ok (some r)) (appends : s.Appends r s')
  | unchanged (refused : answer ≠ .ok true) (ledger : s'.ledger = s.ledger)
      (bytes : s'.log.device.bytes = s.log.device.bytes)
  | torn {r : LogRecord} {kept : Nat} (refused : answer ≠ .ok true)
      (decided : s.ledger.decide c.now c.change = .ok (some r))
      (fits : r.payload.length < 4294967296) (tear : c.faults.tear = some kept)
      (ledger : s'.ledger = s.ledger)
      (bytes : s'.log.device.bytes = s.log.device.bytes ++ (Frame.ofRecord r).take kept)
  | unsynced {r : LogRecord} (refused : answer ≠ .ok true)
      (decided : s.ledger.decide c.now c.change = .ok (some r))
      (fits : r.payload.length < 4294967296) (sync : c.faults.sync = true)
      (ledger : s'.ledger = s.ledger)
      (bytes : s'.log.device.bytes = s.log.device.bytes ++ Frame.ofRecord r)

/-- **What a call can do**, on a device that is not closed. -/
theorem outcome_call {s : Store} (hopen : s.log.device.closed = false) (c : Call) :
    ∃ answer s', s.call c = (answer, s') ∧ s'.log.device.closed = false ∧ s.Outcome c answer s' := by
  unfold call submit
  dsimp only
  cases hdecide : s.ledger.decide c.now c.change with
  | error e => exact ⟨_, _, rfl, hopen, .unchanged (by simp) rfl rfl⟩
  | ok decision =>
      cases decision with
      | none => exact ⟨_, _, rfl, hopen, .unchanged (by simp) rfl rfl⟩
      | some r =>
          -- The ledger takes every record that it has decided on, so only the log can refuse.
          obtain ⟨_, l', _, happly, _⟩ := Ledger.apply_of_decide hdecide
          obtain ⟨answer, log, happend, hopen', hlog⟩ := Log.append_cases
            (l := { s.log with device := { s.log.device with faults := c.faults } }) hopen r
          simp only [commitRecord, happend]
          rcases hlog with ⟨offset, rfl, hfits, hbytes⟩ | ⟨⟨e, rfl⟩, hleft⟩
          · simp only [happly]
            exact ⟨_, _, rfl, hopen', .accepted rfl hdecide ⟨hfits, happly, hbytes⟩⟩
          · rcases hleft with hnothing | ⟨hfits, ⟨kept, htear, hbytes⟩ | ⟨hsync, hbytes⟩⟩
            · exact ⟨_, _, rfl, hopen', .unchanged (by simp) rfl hnothing⟩
            · exact ⟨_, _, rfl, hopen', .torn (by simp) hdecide hfits htear rfl hbytes⟩
            · exact ⟨_, _, rfl, hopen', .unsynced (by simp) hdecide hfits hsync rfl hbytes⟩

end Store

end Multiversion
