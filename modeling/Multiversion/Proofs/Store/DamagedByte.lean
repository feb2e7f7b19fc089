import Multiversion.Proofs.Log.ErrorDetection
import Multiversion.Proofs.Store.ForgedLength

/-!
# Damaged bytes

A log of complete frames in which one byte is replaced.  Outside the length fields, the damage is told from
the frame that it is in: its magic, its version or its type says so, or the checksum does.

* `Frame.Complete.InLength` — a byte of the log is in the length field of one of its frames;
* `TxnError.TellsDamage` — the errors that say that a log is not as it was written;
* `Frame.sealed_iff` — the checksum of a frame is right exactly if the frame is its body, sealed;
* `Frame.Complete.next_set` — what is found where a byte of a frame is replaced.

Main statement: `Store.openOn_damaged`.
-/

namespace Multiversion

/-- The errors that say that a log is not as it was written. -/
inductive TxnError.TellsDamage : TxnError → Prop
  | corruption (what : Corruption) : TellsDamage (.logCorruption what)
  | mismatch (expected actual : UInt32) : TellsDamage (.checksumMismatch expected actual)

namespace Bytes

theorem ofLittleEndian_inj {bs cs : Bytes} (hlength : bs.length = cs.length) :
    ofLittleEndian bs = ofLittleEndian cs ↔ bs = cs := by
  refine ⟨fun h => ?_, fun h => by rw [h]⟩
  rw [← littleEndian_ofLittleEndian bs, h, hlength, littleEndian_ofLittleEndian]

variable {bs : Bytes} {p : Nat} {b : UInt8}

theorem set_ne_self (hp : p < bs.length) (hb : b ≠ bs[p]) : bs.set p b ≠ bs := by
  intro h
  have hread : (bs.set p b)[p]? = bs[p]? := by rw [h]
  rw [List.getElem?_set_self hp, List.getElem?_eq_getElem hp, Option.some.injEq] at hread
  exact hb hread

/-- A part of the bytes in which nothing is replaced. -/
theorem slice_set_of_outside {start width : Nat} (h : p < start ∨ start + width ≤ p) :
    ((bs.set p b).drop start).take width = (bs.drop start).take width := by
  rw [List.drop_set]
  split
  · rfl
  · exact List.take_set_of_le (by omega)

/-- A part of the bytes in which a byte is replaced is another one. -/
theorem slice_set_ne (start width : Nat) (hstart : start ≤ p) (hwidth : p < start + width)
    (hp : p < bs.length) (hb : b ≠ bs[p]) :
    ((bs.set p b).drop start).take width ≠ (bs.drop start).take width := by
  rw [List.drop_set, if_neg (Nat.not_lt.2 hstart), List.take_set]
  have hp' : p - start < ((bs.drop start).take width).length := by
    rw [List.length_take, List.length_drop]
    omega
  apply set_ne_self hp'
  rw [List.getElem_take, List.getElem_drop]
  simpa only [Nat.add_sub_cancel' hstart] using hb

end Bytes

namespace Frame

/-- The checksum that stands behind the payload. -/
def storedChecksum (n : Nat) (bs : Bytes) : UInt32 :=
  UInt32.ofNat (Bytes.ofLittleEndian ((bs.drop (headerSize + n)).take checksumSize))

/-- The checksum that stands behind the payload is that of all before it. -/
def Sealed (n : Nat) (bs : Bytes) : Prop :=
  storedChecksum n bs = Checksum.crc32 (bs.take (headerSize + n))

theorem sealed_of_openSealed {type : RecordType} {n : Nat} {bs : Bytes} {f : Found}
    (h : openSealed type n bs = .ok f) : Sealed n bs := by
  simp only [openSealed] at h
  split at h
  · rename_i hsame
    exact hsame
  · cases h

theorem openSealed_of_not_sealed (type : RecordType) {n : Nat} {bs : Bytes} (h : ¬ Sealed n bs) :
    openSealed type n bs =
      .error (.checksumMismatch (storedChecksum n bs) (Checksum.crc32 (bs.take (headerSize + n)))) := by
  rw [openSealed]
  exact if_neg h

/-- Behind the payload of a sealed frame stands the checksum, and nothing else. -/
theorem sealed_iff {n : Nat} {bs : Bytes} (hlength : bs.length = headerSize + n + checksumSize) :
    Sealed n bs ↔ bs.drop (headerSize + n) =
      Bytes.littleEndian checksumSize (Checksum.crc32 (bs.take (headerSize + n))).toNat := by
  have hwidth : (bs.drop (headerSize + n)).length = checksumSize := by
    rw [List.length_drop, hlength]
    omega
  rw [Sealed, storedChecksum, List.take_of_length_le (Nat.le_of_eq hwidth)]
  refine ⟨fun h => ?_, fun h => ?_⟩
  · have hlayout := Bytes.littleEndian_ofLittleEndian (bs.drop (headerSize + n))
    have hbound := Bytes.ofLittleEndian_lt (bs.drop (headerSize + n))
    rw [hwidth] at hlayout hbound
    rw [← h, UInt32.toNat_ofNat_of_lt' hbound, hlayout]
  · rw [h, Bytes.ofLittleEndian_littleEndian,
      Nat.mod_eq_of_lt (show _ < Bytes.bound checksumSize from UInt32.toNat_lt _), UInt32.ofNat_toNat]

/-- What follows a frame does not matter to its checksum. -/
theorem sealed_append {n : Nat} {bs : Bytes} (hlength : headerSize + n + checksumSize ≤ bs.length)
    (more : Bytes) : Sealed n (bs ++ more) ↔ Sealed n bs := by
  rw [Sealed, Sealed, storedChecksum, storedChecksum, Bytes.slice_append hlength,
    List.take_append_of_le_length (by omega)]

theorem littleEndian_toNat_inj {a b : UInt32} :
    Bytes.littleEndian checksumSize a.toNat = Bytes.littleEndian checksumSize b.toNat ↔ a = b := by
  refine ⟨fun h => ?_, fun h => by rw [h]⟩
  have hread := congrArg Bytes.ofLittleEndian h
  rwa [Bytes.ofLittleEndian_littleEndian, Bytes.ofLittleEndian_littleEndian,
    Nat.mod_eq_of_lt (show _ < Bytes.bound checksumSize from UInt32.toNat_lt _),
    Nat.mod_eq_of_lt (show _ < Bytes.bound checksumSize from UInt32.toNat_lt _),
    UInt32.toNat_inj] at hread

/-- **A frame in which a byte is replaced is not sealed any more.** -/
theorem not_sealed_set {n p : Nat} {b : UInt8} {bs : Bytes}
    (hlength : bs.length = headerSize + n + checksumSize) (hsealed : Sealed n bs) (hp : p < bs.length)
    (hb : b ≠ bs[p]) : ¬ Sealed n (bs.set p b) := by
  intro h
  rw [sealed_iff hlength] at hsealed
  rw [sealed_iff (by rw [List.length_set, hlength])] at h
  by_cases hcovered : p < headerSize + n
  · -- The checksum is still the old one, but not that of what it covers.
    have hp' : p < (bs.take (headerSize + n)).length := by
      rw [List.length_take]
      omega
    have hb' : b ≠ (bs.take (headerSize + n))[p] := by
      rwa [List.getElem_take]
    rw [List.drop_set, if_pos hcovered, hsealed, List.take_set, littleEndian_toNat_inj] at h
    exact Checksum.crc32_set_ne hp' hb' h.symm
  · -- What the checksum covers is as it was, so the checksum has to be the old one.
    have hsame : (bs.set p b).take (headerSize + n) = bs.take (headerSize + n) :=
      List.take_set_of_le (Nat.le_of_not_lt hcovered)
    rw [hsame, ← hsealed] at h
    apply Bytes.set_ne_self hp hb
    rw [← List.take_append_drop (headerSize + n) (bs.set p b), hsame, h, List.take_append_drop]

/-- The header of a frame announces the length of the payload. -/
structure Announces (n : Nat) (bs : Bytes) : Prop where
  magic : (bs.drop 0).take 4 = magic
  version : Bytes.ofLittleEndian ((bs.drop 4).take 2) = version
  length : Bytes.ofLittleEndian ((bs.drop 7).take 4) = n
  room : headerSize + n + checksumSize ≤ bs.length

namespace Announces

variable {n : Nat} {bs : Bytes}

theorem append (h : Announces n bs) (more : Bytes) : Announces n (bs ++ more) := by
  have hroom := h.room
  rw [headerSize] at hroom
  constructor
  · rw [Bytes.slice_append (by omega), h.magic]
  · rw [Bytes.slice_append (by omega), h.version]
  · rw [Bytes.slice_append (by omega), h.length]
  · rw [List.length_append, headerSize]
    omega

/-- Only the type and what is behind the header do not matter to the announcement. -/
theorem set (h : Announces n bs) {p : Nat} (hp : p = 6 ∨ headerSize ≤ p) (b : UInt8) :
    Announces n (bs.set p b) := by
  rw [headerSize] at hp
  constructor
  · rw [Bytes.slice_set_of_outside (by omega), h.magic]
  · rw [Bytes.slice_set_of_outside (by omega), h.version]
  · rw [Bytes.slice_set_of_outside (by omega), h.length]
  · rw [List.length_set]
    exact h.room

end Announces

/-- Where a header announces a frame, but the checksum is not right, damage is told: the type is unknown,
or the checksums do not match. -/
theorem next_of_not_sealed (offset : Nat) {n : Nat} {bs : Bytes} (h : Announces n bs)
    (hsealed : ¬ Sealed n bs) : ∃ e, next offset bs = .error e ∧ e.TellsDamage := by
  have hroom := h.room
  have hmagic : bs.take 4 = magic := h.magic
  unfold next
  rw [if_neg (by omega), if_neg (not_not_intro hmagic)]
  simp only [h.version, ne_eq, not_true_eq_false, if_false]
  cases htype : RecordType.ofByte? (bs.getD 6 0) with
  | none => exact ⟨_, rfl, .corruption _⟩
  | some type =>
      simp only [h.length]
      rw [if_neg (by omega), openSealed_of_not_sealed type hsealed]
      exact ⟨_, rfl, .mismatch _ _⟩

namespace Complete

theorem announces (c : Complete) : Announces c.found.payloadLength c.bytes where
  magic := by
    obtain ⟨type, more, hbytes, -⟩ := c.exists_header
    rw [hbytes]
    rfl
  version := by
    obtain ⟨type, more, hbytes, -⟩ := c.exists_header
    rw [hbytes]
    rfl
  length := by
    obtain ⟨type, more, hbytes, -, hbound, -⟩ := c.exists_header
    rw [hbytes]
    show Bytes.ofLittleEndian (Bytes.littleEndian 4 c.found.payloadLength) = _
    rw [Bytes.ofLittleEndian_littleEndian]
    exact Nat.mod_eq_of_lt hbound
  room := Nat.le_of_eq c.whole

theorem isSealed (c : Complete) : Sealed c.found.payloadLength c.bytes := by
  obtain ⟨type, more, -, -, -, hopen⟩ := c.exists_header
  exact sealed_of_openSealed hopen

/-- **A byte of a frame that is replaced is told**, unless it is in the length field. -/
theorem next_set (c : Complete) (offset : Nat) {p : Nat} {b : UInt8} (hp : p < c.bytes.length)
    (houtside : ¬ (7 ≤ p ∧ p < headerSize)) (hb : b ≠ c.bytes[p]) (tail : Bytes) :
    ∃ e, next offset (c.bytes.set p b ++ tail) = .error e ∧ e.TellsDamage := by
  have hannounces := c.announces
  have hroom := hannounces.room
  have hwhole : (c.bytes.set p b).length = c.bytes.length := List.length_set
  have hlong : ¬ (c.bytes.set p b ++ tail).length < headerSize := by
    rw [List.length_append]
    omega
  have hslice : ∀ start width, start + width ≤ headerSize →
      ((c.bytes.set p b ++ tail).drop start).take width =
        ((c.bytes.set p b).drop start).take width :=
    fun start width h => Bytes.slice_append (by omega) tail
  by_cases hmagic : p < 4
  · -- The magic is not that of a frame.
    have hne := Bytes.slice_set_ne 0 4 (Nat.zero_le p) (by omega) hp hb
    rw [hannounces.magic, ← hslice 0 4 (by decide)] at hne
    refine ⟨_, ?_, .corruption (.badMagic offset)⟩
    rw [next, if_neg hlong]
    exact if_pos hne
  · by_cases hversion : p < 6
    · -- The version is not that of this library.
      have hsame : (c.bytes.set p b ++ tail).take 4 = _ := hslice 0 4 (by decide)
      have hne := Bytes.slice_set_ne 4 2 (by omega) (by omega) hp hb
      rw [Bytes.slice_set_of_outside (by omega), hannounces.magic] at hsame
      rw [Ne, ← Bytes.ofLittleEndian_inj (by simp), hannounces.version, ← hslice 4 2 (by decide)] at hne
      refine ⟨_, ?_, .corruption (.unsupportedVersion
        (Bytes.ofLittleEndian (((c.bytes.set p b ++ tail).drop 4).take 2)) offset)⟩
      rw [next, if_neg hlong, if_neg (not_not_intro hsame)]
      exact if_pos hne
    · -- The header is still that of a frame of this length, whose checksum is not right.
      have hplace : p = 6 ∨ headerSize ≤ p := by
        rw [headerSize] at houtside ⊢
        omega
      have hsealed := not_sealed_set c.whole.symm c.isSealed hp hb
      refine next_of_not_sealed offset ((hannounces.set hplace b).append tail) ?_
      rwa [sealed_append (by omega)]

/-- A byte of a log is in the length field of one of its frames. -/
def InLength : List Complete → Nat → Prop
  | [], _ => False
  | c :: rest, p =>
      if p < c.bytes.length then 7 ≤ p ∧ p < headerSize else InLength rest (p - c.bytes.length)

/-- The scan of a log stops at the frame in which a byte is replaced. -/
theorem scan_set (cs : List Complete) (offset : Nat) {p : Nat} {b : UInt8}
    (hp : p < (cs.flatMap bytes).length) (houtside : ¬ InLength cs p) (hb : b ≠ (cs.flatMap bytes)[p]) :
    ∃ e, scan offset ((cs.flatMap bytes).set p b) = .error e ∧ e.TellsDamage := by
  induction cs generalizing offset p with
  | nil => exact absurd hp (Nat.not_lt_zero p)
  | cons c rest ih =>
      simp only [List.flatMap_cons] at hp hb ⊢
      rw [InLength] at houtside
      rw [List.set_append]
      split
      · -- The byte is in the first frame.
        rename_i hfirst
        rw [if_pos hfirst] at houtside
        rw [List.getElem_append_left hfirst] at hb
        obtain ⟨e, hnext, htells⟩ := c.next_set offset hfirst houtside hb (rest.flatMap bytes)
        exact ⟨e, scan_of_next_error hnext, htells⟩
      · -- The first frame is found, and the byte is behind it.
        rename_i hbehind
        rw [if_neg hbehind] at houtside
        rw [List.getElem_append_right (Nat.le_of_not_lt hbehind)] at hb
        rw [List.length_append] at hp
        obtain ⟨e, hscan, htells⟩ := ih (offset + c.found.size) (by omega) houtside hb
        refine ⟨e, ?_, htells⟩
        have hrest : (c.bytes ++ (rest.flatMap bytes).set (p - c.bytes.length) b).drop c.found.size =
            (rest.flatMap bytes).set (p - c.bytes.length) b := by
          rw [c.whole, List.drop_left]
        rw [scan_of_next_some (c.next_append offset _), hrest, hscan]
        rfl

end Complete

end Frame

namespace Store

/-- **No damaged byte goes unnoticed.**  In a log of complete frames one byte outside the length fields is
replaced by another one.  Reading the log and recovering it then fail with an error that tells of the damage,
a store cannot be opened, and the bytes stay as they are. -/
theorem openOn_damaged (config : StoreConfig) (cs : List Frame.Complete) {p : Nat} {b : UInt8}
    {device : Device} (hp : p < (cs.flatMap Frame.Complete.bytes).length)
    (houtside : ¬ Frame.Complete.InLength cs p) (hb : b ≠ (cs.flatMap Frame.Complete.bytes)[p])
    (hbytes : device.bytes = (cs.flatMap Frame.Complete.bytes).set p b) :
    let log : Log := { device, syncOnWrite := config.syncOnCommit }
    ∃ e : TxnError, e.TellsDamage ∧
      log.readAll = .error e ∧
      log.recover = (.error e, log) ∧
      openOn device config = (.error e, device) := by
  intro log
  obtain ⟨e, hscan, htells⟩ := Frame.Complete.scan_set cs 0 hp houtside hb
  rw [← hbytes] at hscan
  have hrecover : log.recover = (.error e, log) := by
    rw [Log.recover, show Frame.scan 0 log.device.bytes = .error e from hscan]
  refine ⟨e, htells, ?_, hrecover, ?_⟩
  · rw [Log.readAll, show Frame.scan 0 log.device.bytes = .error e from hscan]
    rfl
  · rw [openOn]
    simp only [show Log.recover { device, syncOnWrite := config.syncOnCommit } = _ from hrecover]
    rfl

end Store

namespace DamagedCommit

/-- A log with a begin record and a commit record. -/
def log : List Frame.Complete :=
  [.ofRecord (.begin { id := ⟨7⟩, begin := ⟨7⟩ } 0) (by decide +kernel),
    .ofRecord (.commit ⟨7⟩ ⟨8⟩) (by decide +kernel)]

/-- Where the type of the commit record stands. -/
def position : Nat := 171

/-- A device with the log, where the type of the commit record is that of a global commit. -/
def device : Device :=
  .ofBytes ((log.flatMap Frame.Complete.bytes).set position RecordType.globalCommit.toByte)

end DamagedCommit

/-- The payload of a commit record is also that of a global commit, but the checksum covers the type. -/
theorem openOn_damaged_commit :
    ∃ _ : DamagedCommit.position < (DamagedCommit.log.flatMap Frame.Complete.bytes).length,
      ¬ Frame.Complete.InLength DamagedCommit.log DamagedCommit.position ∧
      RecordType.globalCommit.toByte ≠
        (DamagedCommit.log.flatMap Frame.Complete.bytes)[DamagedCommit.position] ∧
      ∃ e : TxnError, e.TellsDamage ∧
        Store.openOn DamagedCommit.device {} = (.error e, DamagedCommit.device) := by
  have hold : (DamagedCommit.log.flatMap Frame.Complete.bytes)[DamagedCommit.position]? =
      some RecordType.commit.toByte := by
    decide +kernel
  have houtside : ¬ Frame.Complete.InLength DamagedCommit.log DamagedCommit.position := by
    simp only [Frame.Complete.InLength, DamagedCommit.log]
    decide +kernel
  obtain ⟨hp, hold⟩ := List.getElem?_eq_some_iff.1 hold
  have hb : RecordType.globalCommit.toByte ≠
      (DamagedCommit.log.flatMap Frame.Complete.bytes)[DamagedCommit.position] := by
    rw [hold]
    decide
  obtain ⟨e, htells, -, -, hopens⟩ :=
    Store.openOn_damaged {} DamagedCommit.log hp houtside hb (Device.bytes_ofBytes _)
  exact ⟨hp, houtside, hb, e, htells, hopens⟩

end Multiversion
