import Multiversion.Proofs.Log.CompleteFrames

/-!
# Appending to a log

A log whose device does not fail takes every record that fits a frame, each behind the last one, and reading
it gives the records at the offsets at which they were appended.

* `Log.Healthy` — a log whose device does not fail;
* `Log.append_of_fits`, `Log.append_of_tooLarge` — what one append does;
* `Log.appendAll` — appends a list of records and lists those that the log has taken;
* `Log.appendAll_of_healthy` — they become complete frames at the end of the log.

Main statement: `Log.readAll_appendAll`.
-/

namespace Multiversion
namespace Log

/-- A log whose device does not fail. -/
structure Healthy (l : Log) : Prop where
  isOpen : l.device.closed = false
  faultless : l.device.faults = {}

/-- A record that fits a frame is written behind the last one, and the answer is where it starts. -/
theorem append_of_fits {l : Log} (h : l.Healthy) {r : LogRecord} (hr : r.payload.length < 4294967296) :
    ∃ l', l'.Healthy ∧ l.append r = (.ok l.size, l') ∧
      l'.device.bytes = l.device.bytes ++ Frame.ofRecord r := by
  obtain ⟨hopen, hfaults⟩ := h
  refine ⟨{ l with device := l.device.extend (Frame.ofRecord r) }, ⟨hopen, hfaults⟩, ?_,
    Device.bytes_extend _ _⟩
  unfold append Frame.encode
  rw [if_pos hr]
  cases hsync : l.syncOnWrite with
  | false => simp [Device.append, hopen, hfaults, size]
  | true => simp [Device.append, Device.sync, Device.extend, hopen, hfaults, size]

/-- A record that does not fit a frame is refused, and nothing is written. -/
theorem append_of_tooLarge (l : Log) {r : LogRecord} (hr : ¬ r.payload.length < 4294967296) :
    l.append r = (.error (.invalidOperation .payloadTooLarge), l) := by
  unfold append Frame.encode
  rw [if_neg hr]

/-- A log whose device does not fail takes every record that fits a frame. -/
theorem append_of_healthy {l : Log} (h : l.Healthy) (r : LogRecord) :
    ∃ l', l'.Healthy ∧ l.append r = ((fun _ => l.size) <$> Frame.encode r, l') := by
  unfold Frame.encode
  by_cases hr : r.payload.length < 4294967296
  · obtain ⟨l', hhealthy, happend, -⟩ := append_of_fits h hr
    rw [if_pos hr]
    exact ⟨l', hhealthy, happend⟩
  · rw [if_neg hr]
    exact ⟨l, h, append_of_tooLarge l hr⟩

/-- Appends records one after the other, and lists those that the log has taken, each with the offset that
its append has returned. -/
def appendAll (l : Log) : List LogRecord → List (Nat × LogRecord) × Log
  | [] => ([], l)
  | r :: rest =>
      match l.append r with
      | (.error _, l) => l.appendAll rest
      | (.ok offset, l) =>
          let (taken, l) := l.appendAll rest
          ((offset, r) :: taken, l)

/-- **Records become complete frames at the end of the log**, all of those that fit. -/
theorem appendAll_of_healthy {l : Log} (h : l.Healthy) (rs : List LogRecord) :
    ∃ (cs : List Frame.Complete) (l' : Log), l'.Healthy ∧
      l.appendAll rs = (Frame.Complete.located l.size cs, l') ∧
      cs.map Frame.Complete.record = rs.filter (fun r => r.payload.length < 4294967296) ∧
      l'.device.bytes = l.device.bytes ++ cs.flatMap Frame.Complete.bytes := by
  induction rs generalizing l with
  | nil => exact ⟨[], l, h, rfl, rfl, (List.append_nil _).symm⟩
  | cons r rest ih =>
      by_cases hr : r.payload.length < 4294967296
      · obtain ⟨l₁, hhealthy, happend, hbytes₁⟩ := append_of_fits h hr
        obtain ⟨cs, l', hhealthy', hall, hrecords, hbytes⟩ := ih hhealthy
        have hsize : l₁.size = l.size + (Frame.Complete.ofRecord r hr).bytes.length :=
          (congrArg List.length hbytes₁).trans List.length_append
        refine ⟨.ofRecord r hr :: cs, l', hhealthy', ?_, ?_, ?_⟩
        · rw [appendAll, happend]
          dsimp only
          rw [hall, hsize]
          rfl
        · rw [List.map_cons, hrecords, List.filter_cons_of_pos (by simpa using hr)]
          rfl
        · rw [hbytes, hbytes₁, List.flatMap_cons, List.append_assoc]
          rfl
      · obtain ⟨cs, l', hhealthy', hall, hrecords, hbytes⟩ := ih h
        refine ⟨cs, l', hhealthy', ?_, ?_, hbytes⟩
        · rw [appendAll, append_of_tooLarge l hr]
          exact hall
        · rw [hrecords, List.filter_cons_of_neg (by simpa using hr)]

/-- A log of complete frames is read whole. -/
theorem readAll_of_complete {l : Log} {cs : List Frame.Complete}
    (h : l.device.bytes = cs.flatMap Frame.Complete.bytes) :
    l.readAll = .ok (Frame.Complete.located 0 cs) := by
  rw [readAll, h, Frame.Complete.scan_flatMap]
  rfl

/-- **Log records make the round trip.**  Each record whose payload fits a frame is what its payload holds,
read as a payload of its type.  If such records are appended to an empty log, it takes all of them, and
reading it gives this list, each record at the offset that its append has returned. -/
theorem readAll_appendAll {l : Log} (h : l.Healthy) (hempty : l.device.bytes = [])
    {rs : List LogRecord} (hrs : ∀ r ∈ rs, r.payload.length < 4294967296) :
    (∀ r ∈ rs, LogRecord.ofPayload r.type r.payload = .ok r) ∧
      ∃ taken l', l.appendAll rs = (taken, l') ∧ taken.map Prod.snd = rs ∧ l'.readAll = .ok taken := by
  refine ⟨fun r hr => LogRecord.ofPayload_payload (hrs r hr), ?_⟩
  obtain ⟨cs, l', -, hall, hrecords, hbytes⟩ := appendAll_of_healthy h rs
  have hstart : l.size = 0 := congrArg List.length hempty
  have hfit : ∀ r ∈ rs, decide (r.payload.length < 4294967296) = true :=
    fun r hr => decide_eq_true (hrs r hr)
  rw [hempty, List.nil_append] at hbytes
  rw [hstart] at hall
  refine ⟨_, l', hall, ?_, readAll_of_complete hbytes⟩
  rw [Frame.Complete.map_snd_located, hrecords, List.filter_eq_self.2 hfit]

end Log

namespace OneOfEachType

/-- A nested transaction with every optional field, the greatest integers, and tables whose names are not
ASCII. -/
def view : View where
  id := ⟨18446744073709551615⟩
  begin := ⟨24⟩
  parent := some ⟨255⟩
  commit := some ⟨256⟩
  globalCommit := some ⟨65536⟩
  isolation := .readUncommitted
  additive := true
  phase := .rolledBack
  tables := ["", "größe", "表", "😀"]

/-- A record of each type, four of them with a payload of the same layout. -/
def records : List LogRecord :=
  [.begin view 4294967296, .commit ⟨1⟩ ⟨2⟩, .rollback ⟨1⟩, .globalCommit ⟨1⟩ ⟨2⟩, .keepAlive ⟨1⟩ 2]

theorem fit : ∀ r ∈ records, r.payload.length < 4294967296 := by
  decide +kernel

end OneOfEachType

/-- A record of each type makes the round trip. -/
theorem readAll_appendAll_oneOfEachType :
    Log.Healthy {} ∧ ({} : Log).device.bytes = [] ∧
      (∀ r ∈ OneOfEachType.records, r.payload.length < 4294967296) ∧
      (∀ r ∈ OneOfEachType.records, LogRecord.ofPayload r.type r.payload = .ok r) ∧
      ∃ taken l', ({} : Log).appendAll OneOfEachType.records = (taken, l') ∧
        taken.map Prod.snd = OneOfEachType.records ∧ l'.readAll = .ok taken := by
  have hhealthy : Log.Healthy {} := ⟨rfl, rfl⟩
  obtain ⟨hread, hlog⟩ := Log.readAll_appendAll hhealthy rfl OneOfEachType.fit
  exact ⟨hhealthy, rfl, OneOfEachType.fit, hread, hlog⟩

end Multiversion
