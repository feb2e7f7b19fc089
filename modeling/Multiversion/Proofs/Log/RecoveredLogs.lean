import Multiversion.Proofs.Log.Appending

/-!
# Recovered logs

Recovery of any bytes whatever either refuses them or leaves complete frames.  A log of complete frames is
left alone by recovery, and stays one when records are appended.

* `Log.Whole` — a log whose bytes are complete frames, read as these records;
* `Log.Whole.recover` — recovery leaves it as it is;
* `Log.Whole.appendAll` — appending records gives another one;
* `Log.whole_of_recover` — recovery leaves a whole log, unless it refuses what it finds.

Main statement: `Log.recover_settles`.
-/

namespace Multiversion

/-- A device that is cut stays open, and fails as it was told before. -/
theorem Device.status_truncate (d : Device) (length : Nat) :
    (d.truncate length).2.closed = d.closed ∧ (d.truncate length).2.faults = d.faults := by
  unfold truncate
  split
  · exact ⟨rfl, rfl⟩
  · split <;> exact ⟨rfl, rfl⟩

namespace Log

variable {l l' : Log} {records : List (Nat × LogRecord)}

/-- A log on a device that does not fail, which holds complete frames and nothing else, with their records
and offsets. -/
structure Whole (l : Log) (records : List (Nat × LogRecord)) : Prop where
  healthy : l.Healthy
  frames : ∃ cs : List Frame.Complete,
    l.device.bytes = cs.flatMap Frame.Complete.bytes ∧ records = Frame.Complete.located 0 cs

namespace Whole

theorem readAll (h : l.Whole records) : l.readAll = .ok records := by
  obtain ⟨cs, hbytes, rfl⟩ := h.frames
  exact readAll_of_complete hbytes

/-- **Recovery leaves a whole log as it is.** -/
theorem recover (h : l.Whole records) : l.recover = (.ok records, l) := by
  obtain ⟨cs, hbytes, rfl⟩ := h.frames
  have hstop : ¬ 0 + (cs.flatMap Frame.Complete.bytes).length < l.size := by
    rw [size, ← Device.length_bytes, hbytes, Nat.zero_add]
    exact Nat.lt_irrefl _
  rw [Log.recover, hbytes, Frame.Complete.scan_flatMap]
  exact if_neg hstop

/-- **A whole log stays whole** when records are appended, and has those records at its end that fit a
frame. -/
theorem appendAll (h : l.Whole records) (rs : List LogRecord) :
    ∃ taken l', l.appendAll rs = (taken, l') ∧ l'.Whole (records ++ taken) ∧
      taken.map Prod.snd = rs.filter (fun r => r.payload.length < 4294967296) := by
  obtain ⟨cs, hbytes, rfl⟩ := h.frames
  obtain ⟨ds, l', hhealthy, hall, hrecords, hbytes'⟩ := appendAll_of_healthy h.healthy rs
  have hsize : l.size = 0 + (cs.flatMap Frame.Complete.bytes).length := by
    rw [size, ← Device.length_bytes, hbytes, Nat.zero_add]
  refine ⟨_, l', hall, ⟨hhealthy, cs ++ ds, ?_, ?_⟩, ?_⟩
  · rw [hbytes', hbytes, List.flatMap_append]
  · rw [Frame.Complete.located_append, hsize]
  · rw [Frame.Complete.map_snd_located, hrecords]

end Whole

theorem Healthy.recover (h : l.Healthy) : l.recover.2.Healthy := by
  unfold Log.recover
  split
  · exact h
  · rename_i stop _
    split
    · obtain ⟨hclosed, hfaults⟩ := l.device.status_truncate stop
      split <;> rename_i hcut <;> rw [hcut] at hclosed hfaults
      · exact ⟨hclosed.trans h.isOpen, hfaults.trans h.faultless⟩
      · exact ⟨hclosed.trans h.isOpen, hfaults.trans h.faultless⟩
    · exact h

/-- **Recovery leaves a whole log** where the bytes can be scanned. -/
theorem whole_of_recover (h : l.Healthy) {stop : Nat}
    (hscan : Frame.scan 0 l.device.bytes = .ok (records, stop)) :
    ∃ l', l.recover = (.ok records, l') ∧ l'.Whole records ∧ l'.device.bytes <+: l.device.bytes := by
  obtain ⟨cs, tail, hbytes, hrecords, hstop, -⟩ := Frame.complete_of_scan hscan
  obtain ⟨l', hrecover, hleft⟩ := recover_of_scan h.isOpen (by rw [h.faultless]) hscan
  have hhealthy := h.recover
  have hkept : l'.device.bytes = cs.flatMap Frame.Complete.bytes := by
    rw [hleft, hbytes, hstop, Nat.zero_add, List.take_left]
  rw [hrecover] at hhealthy
  exact ⟨l', hrecover, ⟨hhealthy, cs, hkept, hrecords⟩, hleft ▸ List.take_prefix _ _⟩

/-- **Recovery settles.**  On a device that does not fail, whatever bytes it holds, recovery either refuses
them, for the reason for which they cannot be read, and leaves them as they are; or it returns the records
that can be read and leaves a prefix of the bytes.  What it has left reads as these records, is left alone by
a second recovery with the same answer, and if any records are appended, those that fit a frame follow the
others at the offsets that their appends have returned. -/
theorem recover_settles (h : l.Healthy) :
    (∃ e, l.readAll = .error e ∧ l.recover = (.error e, l)) ∨
      ∃ records l', l.readAll = .ok records ∧ l.recover = (.ok records, l') ∧
        l'.device.bytes <+: l.device.bytes ∧
        l'.readAll = .ok records ∧
        l'.recover = (.ok records, l') ∧
        ∀ rs : List LogRecord, ∃ taken l'', l'.appendAll rs = (taken, l'') ∧
          taken.map Prod.snd = rs.filter (fun r => r.payload.length < 4294967296) ∧
          l''.readAll = .ok (records ++ taken) := by
  cases hscan : Frame.scan 0 l.device.bytes with
  | error e =>
      refine .inl ⟨e, ?_, ?_⟩
      · rw [readAll, hscan]
        rfl
      · rw [recover, hscan]
  | ok scanned =>
      obtain ⟨records, stop⟩ := scanned
      have hread : l.readAll = .ok records := by
        rw [readAll, hscan]
        rfl
      obtain ⟨l', hrecover, hwhole, hprefix⟩ := whole_of_recover h hscan
      refine .inr ⟨records, l', hread, hrecover, hprefix, hwhole.readAll, hwhole.recover, fun rs => ?_⟩
      obtain ⟨taken, l'', hall, hwhole', htaken⟩ := hwhole.appendAll rs
      exact ⟨taken, l'', hall, htaken, hwhole'.readAll⟩

end Log

namespace ForeignTail

/-- The header of a begin record of four gigabytes, and the beginning of another frame. -/
def tail : Bytes :=
  [0x53, 0x54, 0x58, 0x4C, 0x01, 0x00, 0x01, 0xFF, 0xFF, 0xFF, 0xFF, 0x53, 0x54, 0x58, 0x4C]

/-- A log with one record, and bytes behind it that are no frame. -/
def log : Log := { device := .ofBytes (Frame.ofRecord (.rollback ⟨3⟩) ++ tail) }

theorem readAll_log : log.readAll = .ok [(0, .rollback ⟨3⟩)] := by
  have htail : ∀ offset, Frame.next offset tail = .ok none := fun offset => rfl
  have hscan := Frame.Complete.scan_append 0 [.ofRecord (.rollback ⟨3⟩) (by decide +kernel)] tail
  rw [Frame.scan_of_next (htail _)] at hscan
  have hbytes : log.device.bytes = [Frame.Complete.ofRecord (.rollback ⟨3⟩) (by decide +kernel)].flatMap
      Frame.Complete.bytes ++ tail := Device.bytes_ofBytes _
  rw [Log.readAll, hbytes, hscan]
  rfl

end ForeignTail

/-- Bytes behind the last record that announce a long one are cut off, and nothing is left to recover. -/
theorem recover_settles_foreignTail :
    ForeignTail.log.Healthy ∧ ∃ l', ForeignTail.log.recover = (.ok [(0, .rollback ⟨3⟩)], l') ∧
      l'.device.bytes <+: ForeignTail.log.device.bytes ∧
      l'.readAll = .ok [(0, .rollback ⟨3⟩)] ∧
      l'.recover = (.ok [(0, .rollback ⟨3⟩)], l') := by
  have hhealthy : ForeignTail.log.Healthy := ⟨rfl, rfl⟩
  rcases Log.recover_settles hhealthy with
    ⟨e, hread, -⟩ | ⟨records, l', hread, hrecover, hprefix, hread', hagain, -⟩
  · cases ForeignTail.readAll_log.symm.trans hread
  · cases ForeignTail.readAll_log.symm.trans hread
    exact ⟨hhealthy, l', hrecover, hprefix, hread', hagain⟩

end Multiversion
