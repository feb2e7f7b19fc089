import Multiversion.Proofs.Log.CompleteFrames
import Multiversion.Proofs.Store.Recovery

/-!
# Forged lengths

The length field of a frame is believed before the checksum is compared.  If the field of one frame of a
log is overwritten, the frame that its header now announces ends within the log, or it does not; in the
second case it is taken for a frame that was cut short.

* `Frame.forge` — a frame with another length field;
* `Frame.Forged` — a log of complete frames, one of which has its length field overwritten;
* `Frame.Forged.EndsWithin` — the damaged frame, as long as its header now says, ends within the log;
* `Frame.Forged.Passes` — it is found all the same, and everything behind it is read too.

Main statement: `Store.openOn_forged` — recovery refuses such a log and leaves it as it is exactly if the
damaged frame ends within the log and does not pass; if it does not end within the log, recovery cuts it off
with all complete frames behind it.
-/

namespace Multiversion

namespace Frame

/-- A frame is found at the front, and all that follows it is read. -/
def PassesAt (offset : Nat) (bs : Bytes) : Prop :=
  ∃ f rest, next offset bs = .ok (some f) ∧ scan (offset + f.size) (bs.drop f.size) = .ok rest

/-- A scan fails exactly if there is something at the front that is no frame, or if it fails behind the
frame there. -/
theorem scan_eq_error_iff (offset : Nat) (bs : Bytes) :
    (∃ e, scan offset bs = .error e) ↔ next offset bs ≠ .ok none ∧ ¬ PassesAt offset bs := by
  cases hnext : next offset bs with
  | error e => simp [scan_of_next_error hnext, PassesAt, hnext]
  | ok found =>
      cases found with
      | none => simp [scan_of_next hnext]
      | some f =>
          rw [scan_of_next_some hnext]
          cases hrest : scan (offset + f.size) (bs.drop f.size) with
          | error e => simp [PassesAt, hnext, hrest, Functor.map, Except.map]
          | ok rest =>
              refine iff_of_false (by simp [Functor.map, Except.map]) fun h => ?_
              exact h.2 ⟨f, rest, hnext, hrest⟩

/-- The bytes of a frame with another length field. -/
def forge (field frame : Bytes) : Bytes := frame.take 7 ++ field ++ frame.drop headerSize

namespace Complete

/-- A frame with a forged length is read as its header now says. -/
theorem next_forge (c : Complete) {field : Bytes} (hwidth : field.length = 4) (offset : Nat)
    (tail : Bytes) :
    next offset (forge field c.bytes ++ tail) = .ok none ↔
      (forge field c.bytes ++ tail).length < headerSize + Bytes.ofLittleEndian field + checksumSize := by
  obtain ⟨type, more, hbytes, -, -, -⟩ := c.exists_header
  have hlayout := Bytes.littleEndian_ofLittleEndian field
  have hbound := Bytes.ofLittleEndian_lt field
  rw [hwidth] at hlayout hbound
  have hforge : forge field c.bytes ++ tail =
      header type (Bytes.ofLittleEndian field) ++ (more ++ tail) := by
    rw [header, hlayout, hbytes]
    simp [forge, header, magic, headerSize, Bytes.littleEndian]
  have hroom : (header type (Bytes.ofLittleEndian field) ++ (more ++ tail)).length <
        headerSize + Bytes.ofLittleEndian field + checksumSize ↔
      (more ++ tail).length < Bytes.ofLittleEndian field + checksumSize := by
    rw [List.length_append, length_header]
    omega
  rw [hforge, hroom, next_header offset type hbound]
  split
  · rename_i hshort
    exact iff_of_true rfl hshort
  · rename_i hlong
    refine iff_of_false ?_ hlong
    cases openSealed type (Bytes.ofLittleEndian field)
      (header type (Bytes.ofLittleEndian field) ++ (more ++ tail)) <;> simp [Functor.map, Except.map]

end Complete

/-- A log of complete frames, one of which has its length field overwritten. -/
structure Forged where
  before : List Complete
  frame : Complete
  field : Bytes
  width : field.length = 4
  after : List Complete

namespace Forged

variable (f : Forged)

/-- The complete frames before the damage. -/
def intact : Bytes := f.before.flatMap Complete.bytes

/-- The damaged frame, and the complete frames behind it. -/
def damaged : Bytes := forge f.field f.frame.bytes ++ f.after.flatMap Complete.bytes

/-- All of the log. -/
def bytes : Bytes := f.intact ++ f.damaged

/-- The damaged frame, as long as its header now says, ends within the log. -/
def EndsWithin : Prop :=
  headerSize + Bytes.ofLittleEndian f.field + checksumSize ≤ f.damaged.length

/-- The damaged frame is found all the same, which its checksum makes unlikely, and all that follows it
is read. -/
def Passes : Prop := PassesAt f.intact.length f.damaged

theorem scan_bytes :
    ∃ found : List (Nat × LogRecord), found.map Prod.snd = f.before.map Complete.record ∧
      scan 0 f.bytes = (fun rest => (found ++ rest.1, rest.2)) <$> scan f.intact.length f.damaged := by
  have hscan := Complete.scan_append 0 f.before f.damaged
  rw [Nat.zero_add] at hscan
  exact ⟨_, Complete.map_snd_located 0 f.before, hscan⟩

theorem next_eq_none_iff : next f.intact.length f.damaged = .ok none ↔ ¬ f.EndsWithin := by
  rw [damaged, f.frame.next_forge f.width, EndsWithin, Nat.not_le]
  rfl

/-- The scan fails exactly if the damaged frame ends within the log and does not pass. -/
theorem scan_eq_error_iff : (∃ e, scan 0 f.bytes = .error e) ↔ f.EndsWithin ∧ ¬ f.Passes := by
  obtain ⟨found, -, hscan⟩ := f.scan_bytes
  have hrest : (∃ e, scan 0 f.bytes = .error e) ↔
      ∃ e, scan f.intact.length f.damaged = .error e := by
    rw [hscan]
    cases scan f.intact.length f.damaged <;> simp [Functor.map, Except.map]
  rw [hrest, Frame.scan_eq_error_iff, Ne, f.next_eq_none_iff, Classical.not_not]
  rfl

/-- If the damaged frame does not end within the log, the scan stops before it. -/
theorem scan_of_not_endsWithin (h : ¬ f.EndsWithin) :
    ∃ found, scan 0 f.bytes = .ok (found, f.intact.length) ∧
      found.map Prod.snd = f.before.map Complete.record := by
  obtain ⟨found, hfound, hscan⟩ := f.scan_bytes
  rw [scan_of_next (f.next_eq_none_iff.2 h)] at hscan
  exact ⟨found, by rw [hscan]; simp [Functor.map, Except.map], hfound⟩

end Forged

end Frame

namespace Log

variable {l : Log}

/-- Recovery refuses a log exactly if the scan fails. -/
theorem recover_eq_error_iff (hopen : l.device.closed = false)
    (hfaults : l.device.faults.truncate = false) :
    (∃ e, l.recover = (.error e, l)) ↔ ∃ e, Frame.scan 0 l.device.bytes = .error e := by
  cases hscan : Frame.scan 0 l.device.bytes with
  | error e => simp [recover, hscan]
  | ok scanned =>
      obtain ⟨l', hrecover, -⟩ := recover_of_scan hopen hfaults hscan
      simp [hrecover]

end Log

namespace Store

/-- **What opening a log with a forged length does.**  The device is open and does what it is told.
Recovery refuses the log and leaves it as it is exactly if the damaged frame, as long as its header now
says, ends within the log and does not pass, and then opening a store is refused too.  If it does not end
within the log, it is taken for a frame that was cut short: recovery succeeds with the records before it,
and cuts off the damaged frame with all complete frames behind it. -/
theorem openOn_forged (config : StoreConfig) (f : Frame.Forged) {device : Device}
    (hopen : device.closed = false) (hfaults : device.faults.truncate = false)
    (hbytes : device.bytes = f.bytes) :
    let log : Log := { device, syncOnWrite := config.syncOnCommit }
    ((∃ e, log.recover = (.error e, log)) ↔ f.EndsWithin ∧ ¬ f.Passes) ∧
    (f.EndsWithin → ¬ f.Passes → ∃ e, openOn device config = (.error e, device)) ∧
    (¬ f.EndsWithin →
      (∃ records log', log.recover = (.ok records, log') ∧
        records.map Prod.snd = f.before.map Frame.Complete.record ∧
        log'.device.bytes = f.intact) ∧
      (openOn device config).2.bytes = f.intact ∧
      ∀ ledger, Ledger.replay {} (f.before.map Frame.Complete.record) = .ok ledger →
        ∃ store, openOn device config = (.ok store, store.log.device) ∧ store.ledger = ledger) := by
  intro log
  have hrefused : (∃ e, log.recover = (.error e, log)) ↔ f.EndsWithin ∧ ¬ f.Passes := by
    rw [Log.recover_eq_error_iff hopen hfaults, ← f.scan_eq_error_iff, ← hbytes]
  refine ⟨hrefused, fun hwithin hpasses => ?_, fun hbeyond => ?_⟩
  · obtain ⟨e, hrecover⟩ := hrefused.2 ⟨hwithin, hpasses⟩
    refine ⟨e, ?_⟩
    rw [openOn]
    simp only [show Log.recover { device, syncOnWrite := config.syncOnCommit } = _ from hrecover]
    rfl
  · obtain ⟨records, hscan, hrecords⟩ := f.scan_of_not_endsWithin hbeyond
    rw [← hbytes] at hscan
    obtain ⟨log', hrecover, hcut⟩ := Log.recover_of_scan (l := log) hopen hfaults hscan
    have hkept : log'.device.bytes = f.intact := by
      rw [hcut]
      show device.bytes.take _ = _
      rw [hbytes, Frame.Forged.bytes, List.take_left]
    refine ⟨⟨records, log', hrecover, hrecords, hkept⟩, ?_, fun ledger hreplay => ?_⟩
    · rw [openOn]
      simp only [show Log.recover { device, syncOnWrite := config.syncOnCommit } = _ from hrecover]
      split <;> exact hkept
    · refine ⟨{ ledger, log := log', config, stats := { replayedRecords := records.length } }, ?_, rfl⟩
      rw [openOn]
      simp only [show Log.recover { device, syncOnWrite := config.syncOnCommit } = _ from hrecover,
        hrecords, hreplay]

end Store

namespace ForgedBegin

/-- A log with two begin records, where the header of the first one now announces all that a header can
announce. -/
def log : Frame.Forged where
  before := []
  frame := .ofRecord (.begin { id := ⟨1⟩, begin := ⟨1⟩ } 0) (by decide +kernel)
  field := [0xFF, 0xFF, 0xFF, 0xFF]
  width := rfl
  after := [.ofRecord (.begin { id := ⟨2⟩, begin := ⟨2⟩ } 0) (by decide +kernel)]

theorem not_endsWithin : ¬ log.EndsWithin := by
  rw [Frame.Forged.EndsWithin]
  decide +kernel

theorem field_ne : log.field ≠ (log.frame.bytes.drop 7).take 4 := by
  decide +kernel

end ForgedBegin

/-- The first length of two is forged, and nothing is left of the log. -/
theorem openOn_forged_begin :
    (Device.ofBytes ForgedBegin.log.bytes).closed = false ∧
      (Device.ofBytes ForgedBegin.log.bytes).faults.truncate = false ∧
      (Device.ofBytes ForgedBegin.log.bytes).bytes = ForgedBegin.log.bytes ∧
      ¬ ForgedBegin.log.EndsWithin ∧
      (Store.openOn (.ofBytes ForgedBegin.log.bytes) {}).2.bytes = [] := by
  have hbytes := Device.bytes_ofBytes ForgedBegin.log.bytes
  obtain ⟨-, hcut, -⟩ :=
    (Store.openOn_forged {} ForgedBegin.log rfl rfl hbytes).2.2 ForgedBegin.not_endsWithin
  exact ⟨rfl, rfl, hbytes, ForgedBegin.not_endsWithin, hcut⟩

/-- **Recovery can throw away intact records**: not every log in which the length of one record is
overwritten, and which goes on with a complete record, is refused. -/
theorem not_refused_of_forged :
    ¬ ∀ (config : StoreConfig) (f : Frame.Forged) (device : Device), device.closed = false →
      device.faults = {} → device.bytes = f.bytes → f.field ≠ (f.frame.bytes.drop 7).take 4 →
      f.after ≠ [] →
      (∃ e, ({ device, syncOnWrite := config.syncOnCommit } : Log).recover =
        (.error e, { device, syncOnWrite := config.syncOnCommit })) ∧
      ∃ e, Store.openOn device config = (.error e, device) := by
  intro h
  have hbytes := Device.bytes_ofBytes ForgedBegin.log.bytes
  obtain ⟨hrefused, -⟩ := h {} ForgedBegin.log (.ofBytes ForgedBegin.log.bytes) rfl rfl hbytes
    ForgedBegin.field_ne (by simp [ForgedBegin.log])
  rw [Log.recover_eq_error_iff rfl rfl, hbytes, ForgedBegin.log.scan_eq_error_iff] at hrefused
  exact ForgedBegin.not_endsWithin hrefused.1

end Multiversion
