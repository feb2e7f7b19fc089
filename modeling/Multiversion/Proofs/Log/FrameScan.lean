import Multiversion.Log.Basic
import Multiversion.Proofs.Log.RoundTrip

/-!
# Scanning frames

A log is scanned frame by frame, and the scan stops before something that is no frame, such as the beginning
of one.

* `Frame.next_frame` — a whole frame at the front is found;
* `Frame.next_of_lt` — the beginning of a frame is not a frame;
* `Frame.scan_of_next`, `Frame.scan_of_next_error`, `Frame.scan_of_next_some` — one step of the scan;
* `Log.recover_of_scan` — recovery keeps what the scan has passed.
-/

namespace Multiversion

theorem Bytes.le_ofLittleEndian_append (bs : Bytes) (b : UInt8) :
    b.toNat * bound bs.length ≤ ofLittleEndian (bs ++ [b]) := by
  induction bs with
  | nil => simp [ofLittleEndian, bound]
  | cons a rest ih =>
      rw [List.cons_append, ofLittleEndian, List.length_cons, bound, Nat.mul_left_comm]
      exact Nat.le_trans (Nat.mul_le_mul_left 256 ih) (Nat.le_add_left _ _)

namespace Frame

/-- Everything in a frame before the payload. -/
def header (type : RecordType) (n : Nat) : Bytes :=
  magic ++ Bytes.littleEndian 2 version ++ type.toByte :: Bytes.littleEndian 4 n

theorem length_header (type : RecordType) (n : Nat) : (header type n).length = headerSize := rfl

theorem length_body (type : RecordType) (payload : Bytes) :
    (body type payload).length = headerSize + payload.length := by
  show (header type payload.length ++ payload).length = _
  rw [List.length_append, length_header]

theorem length_ofRecord (r : LogRecord) :
    (ofRecord r).length = headerSize + r.payload.length + checksumSize := by
  rw [ofRecord, withChecksum, List.length_append, length_body, Bytes.length_littleEndian]

theorem ofRecord_eq (r : LogRecord) :
    ofRecord r = header r.type r.payload.length ++
      (r.payload ++ Bytes.littleEndian checksumSize (Checksum.crc32 (body r.type r.payload)).toNat) := by
  rw [ofRecord, withChecksum, body, header, List.append_assoc]

/-- Behind the record type stands the length of the frame. -/
theorem next_typed (offset : Nat) (type : RecordType) {rest : Bytes} (hrest : 4 ≤ rest.length) :
    next offset (magic ++ Bytes.littleEndian 2 version ++ type.toByte :: rest) =
      if rest.length < 4 + Bytes.ofLittleEndian (rest.take 4) + checksumSize then .ok none
      else some <$> openSealed type (Bytes.ofLittleEndian (rest.take 4))
        (magic ++ Bytes.littleEndian 2 version ++ type.toByte :: rest) := by
  generalize hbytes : magic ++ Bytes.littleEndian 2 version ++ type.toByte :: rest = bytes
  have hlength : bytes.length = 7 + rest.length := by
    rw [← hbytes, List.length_append, List.length_cons]
    show 6 + (rest.length + 1) = 7 + rest.length
    omega
  have hmagic : bytes.take 4 = magic := by rw [← hbytes]; rfl
  have hversion : Bytes.ofLittleEndian ((bytes.drop 4).take 2) = version := by rw [← hbytes]; rfl
  have htype : bytes.getD 6 0 = type.toByte := by rw [← hbytes]; rfl
  have hannounced : bytes.drop 7 = rest := by rw [← hbytes]; rfl
  have hheader : ¬ bytes.length < headerSize := by rw [hlength, headerSize]; omega
  have hroom : bytes.length < headerSize + Bytes.ofLittleEndian (rest.take 4) + checksumSize ↔
      rest.length < 4 + Bytes.ofLittleEndian (rest.take 4) + checksumSize := by
    rw [hlength, headerSize]
    omega
  unfold next
  rw [if_neg hheader, if_neg (by simp [hmagic])]
  simp only [hversion, ne_eq, not_true_eq_false, if_false, htype, RecordType.ofByte?_toByte,
    hannounced, hroom]
  cases openSealed type (Bytes.ofLittleEndian (rest.take 4)) bytes <;> rfl

/-- A complete header announces the length of the frame. -/
theorem next_header (offset : Nat) (type : RecordType) {n : Nat} (hn : n < 4294967296) (more : Bytes) :
    next offset (header type n ++ more) =
      if more.length < n + checksumSize then .ok none
      else some <$> openSealed type n (header type n ++ more) := by
  have hlength : (Bytes.littleEndian 4 n ++ more).length = 4 + more.length := by
    rw [List.length_append, Bytes.length_littleEndian]
  have hannounced : Bytes.ofLittleEndian ((Bytes.littleEndian 4 n ++ more).take 4) = n := by
    show Bytes.ofLittleEndian (Bytes.littleEndian 4 n) = n
    rw [Bytes.ofLittleEndian_littleEndian]
    exact Nat.mod_eq_of_lt hn
  have hfield : 4 ≤ (Bytes.littleEndian 4 n ++ more).length := by omega
  have hnext := next_typed offset type hfield
  simp only [hannounced, hlength, Nat.add_assoc, Nat.add_lt_add_iff_left] at hnext
  exact hnext

theorem openSealed_frame {r : LogRecord} (hr : r.payload.length < 4294967296) (more : Bytes) :
    openSealed r.type r.payload.length (ofRecord r ++ more) =
      .ok { record := r, payloadLength := r.payload.length } := by
  have hbody := length_body r.type r.payload
  have hcovered : (ofRecord r ++ more).take (headerSize + r.payload.length) =
      body r.type r.payload := by
    rw [ofRecord, withChecksum, List.append_assoc, List.take_left' hbody]
  have hchecksum : ((ofRecord r ++ more).drop (headerSize + r.payload.length)).take checksumSize =
      Bytes.littleEndian checksumSize (Checksum.crc32 (body r.type r.payload)).toNat := by
    rw [ofRecord, withChecksum, List.append_assoc, List.drop_left' hbody,
      List.take_left' (Bytes.length_littleEndian _ _)]
  have hexpected : UInt32.ofNat (Bytes.ofLittleEndian
      (Bytes.littleEndian checksumSize (Checksum.crc32 (body r.type r.payload)).toNat)) =
      Checksum.crc32 (body r.type r.payload) := by
    rw [Bytes.ofLittleEndian_littleEndian,
      Nat.mod_eq_of_lt (show _ < Bytes.bound checksumSize from UInt32.toNat_lt _), UInt32.ofNat_toNat]
  have hpayload : (body r.type r.payload).drop headerSize = r.payload := by
    show (header r.type r.payload.length ++ r.payload).drop headerSize = _
    exact List.drop_left' (length_header _ _)
  simp only [openSealed, hcovered, hchecksum, hexpected, if_true, hpayload,
    LogRecord.ofPayload_payload hr]

/-- **A whole frame at the front is found.** -/
theorem next_frame (offset : Nat) {r : LogRecord} (hr : r.payload.length < 4294967296)
    (more : Bytes) :
    next offset (ofRecord r ++ more) = .ok (some { record := r, payloadLength := r.payload.length }) := by
  have hopen := openSealed_frame hr more
  rw [ofRecord_eq, List.append_assoc] at hopen ⊢
  rw [next_header offset r.type hr, if_neg, hopen]
  · rfl
  · simp only [List.length_append, Bytes.length_littleEndian]
    omega

/-- A frame that was torn behind its header is no frame as long as the log ends before it would have
ended, whatever was written after it. -/
theorem next_torn (offset : Nat) {r : LogRecord} (hr : r.payload.length < 4294967296) {kept : Nat}
    (hkept : headerSize ≤ kept) {more : Bytes}
    (hmore : ((ofRecord r).take kept ++ more).length < (ofRecord r).length) :
    next offset ((ofRecord r).take kept ++ more) = .ok none := by
  have hsplit : (ofRecord r).take kept ++ more = header r.type r.payload.length ++
      ((r.payload ++ Bytes.littleEndian checksumSize
        (Checksum.crc32 (body r.type r.payload)).toNat).take (kept - headerSize) ++ more) := by
    rw [ofRecord_eq, List.take_append, length_header, List.take_of_length_le, List.append_assoc]
    rw [length_header]
    exact hkept
  rw [hsplit, List.length_append, length_header, length_ofRecord] at hmore
  rw [hsplit, next_header offset r.type hr, if_pos]
  omega

/-- What starts with the beginning of a frame, however short: first the first byte of the magic, and
no byte among the first four that is not of a magic. -/
structure Begun (bs : Bytes) : Prop where
  first : bs = [] ∨ ∃ rest, bs = 0x53 :: rest
  magic : ∀ b ∈ bs.take 4, 0x4C ≤ b

theorem begun_nil : Begun [] := ⟨.inl rfl, by simp⟩

theorem Begun.append {bs more : Bytes} (h : Begun bs) (hmore : Begun more) : Begun (bs ++ more) := by
  refine ⟨?_, fun b hb => ?_⟩
  · rcases h.first with rfl | ⟨rest, rfl⟩
    · exact hmore.first
    · exact .inr ⟨rest ++ more, rfl⟩
  · rw [List.take_append] at hb
    rcases List.mem_append.1 hb with hb | hb
    · exact h.magic b hb
    · exact hmore.magic b (List.take_subset_take_left _ (Nat.sub_le _ _) hb)

theorem begun_take_ofRecord (r : LogRecord) (kept : Nat) : Begun ((ofRecord r).take kept) := by
  refine ⟨?_, fun b hb => ?_⟩
  · cases kept with
    | zero => exact .inl rfl
    | succ kept => exact .inr ⟨_, rfl⟩
  · rw [List.take_take, Nat.min_comm, ← List.take_take] at hb
    have hmagic : ∀ b ∈ Frame.magic, 0x4C ≤ b := by simp [Frame.magic]
    exact hmagic b (List.mem_of_mem_take hb)

theorem begun_ofRecord (r : LogRecord) : Begun (ofRecord r) := by
  rw [← List.take_length (l := ofRecord r)]
  exact begun_take_ofRecord r _

/-- A frame that was torn within its length field is no frame either, if what stands in the rest of
the field is the magic of another one: that announces more than the log has. -/
theorem next_tornLength (offset : Nat) (r : LogRecord) {kept : Nat} (htype : 7 ≤ kept)
    (hkept : kept < headerSize) {more : Bytes} (hbegun : Begun more)
    (hmore : ((ofRecord r).take kept ++ more).length < 1073741824) :
    next offset ((ofRecord r).take kept ++ more) = .ok none := by
  obtain ⟨j, rfl⟩ : ∃ j, kept = 7 + j := ⟨kept - 7, by omega⟩
  have hj : j < 4 := by rw [headerSize] at hkept; omega
  -- What stands behind the record type: the first bytes of the length field, and what follows them.
  generalize hrest : (Bytes.littleEndian 4 r.payload.length).take j ++ more = rest
  have hsplit : (ofRecord r).take (7 + j) ++ more =
      magic ++ Bytes.littleEndian 2 version ++ r.type.toByte :: rest := by
    rw [ofRecord_eq, List.take_append_of_le_length (Nat.le_of_lt hkept), ← hrest]
    rcases j with _ | _ | _ | _ | j
    · rfl
    · rfl
    · rfl
    · rfl
    · omega
  have hlength : rest.length = j + more.length := by
    rw [← hrest, List.length_append, List.length_take, Bytes.length_littleEndian,
      Nat.min_eq_left (Nat.le_of_lt hj)]
  rw [hsplit] at hmore ⊢
  by_cases hheader : rest.length < 4
  · -- The header is still not complete.
    rw [next, if_pos]
    show (magic ++ Bytes.littleEndian 2 version ++ r.type.toByte :: rest).length < 11
    rw [List.length_append, List.length_cons]
    show 6 + (rest.length + 1) < 11
    omega
  · -- The highest byte of the length comes from what was written behind the tear.
    have hlt : 3 - j < more.length := by omega
    have hfield : rest.take 4 =
        ((Bytes.littleEndian 4 r.payload.length).take j ++ more.take (3 - j)) ++ [more[3 - j]] := by
      rw [List.append_assoc, List.take_append_getElem hlt, ← hrest, List.take_append, List.length_take,
        Bytes.length_littleEndian, Nat.min_eq_left (Nat.le_of_lt hj), List.take_take,
        Nat.min_eq_right (Nat.le_of_lt hj), show 4 - j = 3 - j + 1 by omega]
    have hbyte : 0x4C ≤ more[3 - j] :=
      hbegun.magic _ (List.mem_take_iff_getElem.2 ⟨3 - j, by omega, rfl⟩)
    have hannounced := Bytes.le_ofLittleEndian_append
      ((Bytes.littleEndian 4 r.payload.length).take j ++ more.take (3 - j)) more[3 - j]
    have hthree : ((Bytes.littleEndian 4 r.payload.length).take j ++ more.take (3 - j)).length = 3 := by
      simp only [List.length_append, List.length_take, Bytes.length_littleEndian]
      omega
    rw [← hfield, hthree] at hannounced
    have hlarge : 1073741824 ≤ Bytes.ofLittleEndian (rest.take 4) := by
      refine Nat.le_trans ?_ hannounced
      have htoNat : 76 ≤ more[3 - j].toNat := UInt8.le_iff_toNat_le.1 hbyte
      show 1073741824 ≤ more[3 - j].toNat * 16777216
      omega
    rw [next_typed offset r.type (by omega), if_pos]
    rw [List.length_append, List.length_cons] at hmore
    omega

/-- **The beginning of a frame is not a frame**, wherever it ends. -/
theorem next_of_lt (offset : Nat) {r : LogRecord} (hr : r.payload.length < 4294967296) {k : Nat}
    (hk : k < (ofRecord r).length) : next offset ((ofRecord r).take k) = .ok none := by
  by_cases hheader : k < headerSize
  · -- Cut inside the header.
    have hlength : ((ofRecord r).take k).length < headerSize := by
      rw [List.length_take]
      omega
    rw [next, if_pos hlength]
  · -- The header is there, so the length is known.
    rw [← List.append_nil ((ofRecord r).take k)]
    refine next_torn offset hr (Nat.le_of_not_lt hheader) ?_
    rw [List.append_nil, List.length_take]
    omega

/-- Every frame starts alike, up to its record type. -/
theorem take_ofRecord (r : LogRecord) {kept : Nat} (hkept : kept < 7) :
    (ofRecord r).take kept = (magic ++ Bytes.littleEndian 2 version).take kept := by
  rw [ofRecord_eq, header, List.append_assoc, List.take_append_of_le_length]
  show kept ≤ 6
  omega

/-- **A frame that was torn before its record type**, and another one written behind it: whichever
byte the second one starts on, it is not the byte that the first one needs. -/
theorem next_shortTear (offset : Nat) {r : LogRecord} {kept : Nat} (hpos : 0 < kept) (hkept : kept < 7)
    {more : Bytes} (hmore : headerSize ≤ ((ofRecord r).take kept ++ 0x53 :: more).length) :
    ∃ corruption, next offset ((ofRecord r).take kept ++ 0x53 :: more) =
      .error (.logCorruption corruption) := by
  rw [take_ofRecord r hkept] at hmore ⊢
  rw [next, if_neg (Nat.not_lt.2 hmore)]
  -- In each case the byte is known: it belongs to the magic, to the version, or is the type.
  rcases kept with _ | _ | _ | _ | _ | _ | _ | kept
  · contradiction
  · exact ⟨.badMagic offset, rfl⟩
  · exact ⟨.badMagic offset, rfl⟩
  · exact ⟨.badMagic offset, rfl⟩
  · -- Only the low byte of the version is known.
    have hversion : Bytes.ofLittleEndian (0x53 :: more.take 1) ≠ version := by
      show 83 + 256 * Bytes.ofLittleEndian (more.take 1) ≠ 1
      omega
    exact ⟨.unsupportedVersion _ offset, if_pos hversion⟩
  · exact ⟨.unsupportedVersion _ offset, rfl⟩
  · exact ⟨.unknownRecordType 0x53 offset, rfl⟩
  · omega

theorem next_nil (offset : Nat) : next offset [] = .ok none := rfl

theorem scan_of_next {offset : Nat} {tail : Bytes} (htail : next offset tail = .ok none) :
    scan offset tail = .ok ([], offset) := by
  rw [scan]
  split
  · rename_i h
    cases htail.symm.trans h
  · rfl
  · rename_i h
    cases htail.symm.trans h

theorem scan_of_next_error {offset : Nat} {tail : Bytes} {e : TxnError}
    (htail : next offset tail = .error e) : scan offset tail = .error e := by
  rw [scan]
  split
  · rename_i h
    cases htail.symm.trans h
    rfl
  · rename_i h
    cases htail.symm.trans h
  · rename_i h
    cases htail.symm.trans h

/-- Behind a frame that was found the scan goes on. -/
theorem scan_of_next_some {offset : Nat} {bs : Bytes} {f : Found}
    (hnext : next offset bs = .ok (some f)) :
    scan offset bs = (fun rest => ((offset, f.record) :: rest.1, rest.2)) <$>
      scan (offset + f.size) (bs.drop f.size) := by
  rw [scan]
  split
  · rename_i h
    cases hnext.symm.trans h
  · rename_i h
    cases hnext.symm.trans h
  · rename_i g h
    cases hnext.symm.trans h
    cases scan (offset + f.size) (bs.drop f.size) <;> rfl

end Frame

namespace Device

/-- A cut within the bytes of a device that does what it is told. -/
theorem bytes_truncate {d : Device} {length : Nat} (hopen : d.closed = false)
    (hfaults : d.faults.truncate = false) (hlength : length ≤ d.size) :
    ∃ d', d.truncate length = (.ok (), d') ∧ d'.bytes = d.bytes.take length := by
  refine ⟨{ d with content := d.content.extract 0 length }, ?_, ?_⟩
  · rw [truncate, hopen, hfaults, checkRange, if_pos (show length + 0 ≤ d.size from hlength)]
    rfl
  · simp [bytes]

end Device

namespace Log

/-- **Recovery keeps what the scan has passed.** -/
theorem recover_of_scan {l : Log} {records : List (Nat × LogRecord)} {stop : Nat}
    (hopen : l.device.closed = false) (hfaults : l.device.faults.truncate = false)
    (hscan : Frame.scan 0 l.device.bytes = .ok (records, stop)) :
    ∃ l', l.recover = (.ok records, l') ∧ l'.device.bytes = l.device.bytes.take stop := by
  unfold recover
  rw [hscan]
  dsimp only
  split
  · rename_i hcut
    obtain ⟨d, htruncate, hbytes⟩ := Device.bytes_truncate hopen hfaults (Nat.le_of_lt hcut)
    rw [htruncate]
    exact ⟨{ l with device := d }, rfl, hbytes⟩
  · rename_i hwhole
    refine ⟨l, rfl, (List.take_of_length_le ?_).symm⟩
    exact Nat.le_of_not_lt hwhole

end Log

end Multiversion
