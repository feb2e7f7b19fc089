import Multiversion.Proofs.Log.FrameScan

/-!
# Complete frames

What the scan of a log has passed is a list of complete frames, whoever wrote them, and it is passed in the
same way wherever it stands and whatever follows it.

* `Frame.Complete` — bytes that are read as one frame, with nothing left over;
* `Frame.Complete.located` — the records of complete frames, each with the offset of its frame;
* `Frame.header_of_next` — a frame that was found starts with its header;
* `Frame.Complete.scan_append`, `Frame.scan_frames` — the scan of complete frames and of what follows them;
* `Frame.complete_of_scan` — a scan that succeeds has passed complete frames, and stops before something
  that is no frame.
-/

namespace Multiversion

namespace Bytes

theorem ofLittleEndian_lt (bs : Bytes) : ofLittleEndian bs < bound bs.length := by
  induction bs with
  | nil => exact Nat.one_pos
  | cons b rest ih =>
      have hb : b.toNat < 256 := b.toNat_lt
      rw [ofLittleEndian, List.length_cons, bound]
      omega

/-- Every byte string is the layout of the number that it stands for. -/
theorem littleEndian_ofLittleEndian (bs : Bytes) : littleEndian bs.length (ofLittleEndian bs) = bs := by
  induction bs with
  | nil => rfl
  | cons b rest ih =>
      have hb : b.toNat < 256 := b.toNat_lt
      have hrest : (b.toNat + 256 * ofLittleEndian rest) / 256 = ofLittleEndian rest := by omega
      have hlow : UInt8.ofNat (b.toNat + 256 * ofLittleEndian rest) = b := by
        rw [UInt8.ofNat_add, UInt8.ofNat_mul]
        simp
      rw [ofLittleEndian, List.length_cons, littleEndian, hrest, ih, hlow]

/-- What follows bytes does not matter to a part of them. -/
theorem slice_append {bs : Bytes} {start width : Nat} (h : start + width ≤ bs.length) (more : Bytes) :
    ((bs ++ more).drop start).take width = (bs.drop start).take width := by
  rw [List.drop_append_of_le_length (by omega), List.take_append_of_le_length]
  rw [List.length_drop]
  omega

end Bytes

theorem RecordType.toByte_of_ofByte? {b : UInt8} {type : RecordType} (h : ofByte? b = some type) :
    type.toByte = b := by
  unfold ofByte? at h
  repeat' split at h
  all_goals cases h
  all_goals simp [toByte, *]

namespace Frame

/-- The four parts of a header, and what follows it. -/
theorem append_of_header {bs : Bytes} (hlong : headerSize ≤ bs.length) :
    bs.take 4 ++ (bs.drop 4).take 2 ++ bs.getD 6 0 :: (bs.drop 7).take 4 ++ bs.drop headerSize = bs := by
  match bs, hlong with
  | _ :: _ :: _ :: _ :: _ :: _ :: _ :: _ :: _ :: _ :: _ :: more, _ => rfl

/-- A frame starts with its header. -/
theorem header_of_next {offset : Nat} {bs : Bytes} {f : Found} (h : next offset bs = .ok (some f)) :
    ∃ type more, bs = header type f.payloadLength ++ more ∧ f.payloadLength < 4294967296 ∧
      openSealed type f.payloadLength bs = .ok f := by
  unfold next at h
  split at h
  · simp at h
  rename_i hlong
  split at h
  · simp at h
  rename_i hmagic
  dsimp only at h
  split at h
  · simp at h
  rename_i hversion
  split at h
  · simp at h
  rename_i type htype
  split at h
  · simp at h
  split at h
  · rename_i g hopen
    cases h
    have hn := payloadLength_of_openSealed hopen
    have hparts := append_of_header (Nat.le_of_not_lt hlong)
    have hlength : 11 ≤ bs.length := Nat.le_of_not_lt hlong
    have hwidth : ((bs.drop 4).take 2).length = 2 := by simp; omega
    have hwidth' : ((bs.drop 7).take 4).length = 4 := by simp; omega
    have hlayout := Bytes.littleEndian_ofLittleEndian ((bs.drop 4).take 2)
    have hlayout' := Bytes.littleEndian_ofLittleEndian ((bs.drop 7).take 4)
    have hbound := Bytes.ofLittleEndian_lt ((bs.drop 7).take 4)
    rw [hwidth, Classical.not_not.1 hversion] at hlayout
    rw [hwidth', ← hn] at hlayout' hbound
    refine ⟨type, bs.drop headerSize, ?_, hbound, hn ▸ hopen⟩
    rw [header, hlayout, hlayout', ← Classical.not_not.1 hmagic, RecordType.toByte_of_ofByte? htype,
      hparts]
  · simp at h

/-- What follows a frame does not matter to it. -/
theorem openSealed_append {type : RecordType} {n : Nat} {bs : Bytes}
    (h : headerSize + n + checksumSize ≤ bs.length) (more : Bytes) :
    openSealed type n (bs ++ more) = openSealed type n bs := by
  have hcovered : (bs ++ more).take (headerSize + n) = bs.take (headerSize + n) :=
    List.take_append_of_le_length (by omega)
  simp only [openSealed, hcovered, Bytes.slice_append h]

/-- A frame is found in its own bytes, wherever they stand. -/
theorem next_take {offset : Nat} {bs : Bytes} {f : Found} (h : next offset bs = .ok (some f))
    (other : Nat) : next other (bs.take f.size) = .ok (some f) := by
  obtain ⟨type, more, hbytes, hbound, hopen⟩ := header_of_next h
  have hroom := size_le_of_next h
  have hopen' : openSealed type f.payloadLength (bs.take f.size) = .ok f := by
    rw [← openSealed_append _ (bs.drop f.size), List.take_append_drop, hopen]
    rw [List.length_take, Nat.min_eq_left hroom]
    exact Nat.le_refl _
  have hframe : bs.take f.size = header type f.payloadLength ++
      more.take (f.payloadLength + checksumSize) := by
    rw [congrArg (List.take f.size) hbytes, List.take_append, length_header, List.take_of_length_le,
      Found.size, Nat.add_assoc, Nat.add_sub_cancel_left]
    rw [length_header, Found.size]
    omega
  have hmore : f.payloadLength + checksumSize ≤ more.length := by
    rw [hbytes, List.length_append, length_header, Found.size] at hroom
    omega
  rw [hframe] at hopen' ⊢
  rw [next_header other type hbound, if_neg, hopen']
  · rfl
  · rw [List.length_take, Nat.min_eq_left hmore]
    exact Nat.lt_irrefl _

/-- Bytes that are read as one frame, with nothing left over. -/
structure Complete where
  bytes : Bytes
  found : Found
  read : next 0 bytes = .ok (some found)
  whole : found.size = bytes.length

namespace Complete

/-- The record in a complete frame. -/
def record (c : Complete) : LogRecord := c.found.record

/-- The frame of a record, as it is appended to a log. -/
def ofRecord (r : LogRecord) (hr : r.payload.length < 4294967296) : Complete where
  bytes := Frame.ofRecord r
  found := { record := r, payloadLength := r.payload.length }
  read := by
    have hnext := next_frame 0 hr []
    rwa [List.append_nil] at hnext
  whole := (length_ofRecord r).symm

theorem exists_header (c : Complete) :
    ∃ type more, c.bytes = header type c.found.payloadLength ++ more ∧
      more.length = c.found.payloadLength + checksumSize ∧ c.found.payloadLength < 4294967296 ∧
      openSealed type c.found.payloadLength c.bytes = .ok c.found := by
  obtain ⟨type, more, hbytes, hbound, hopen⟩ := header_of_next c.read
  refine ⟨type, more, hbytes, ?_, hbound, hopen⟩
  have hsize := c.whole
  rw [hbytes, List.length_append, length_header, Found.size] at hsize
  omega

/-- A complete frame is found wherever it stands, whatever follows it. -/
theorem next_append (c : Complete) (offset : Nat) (tail : Bytes) :
    next offset (c.bytes ++ tail) = .ok (some c.found) := by
  obtain ⟨type, more, hbytes, hlength, hbound, hopen⟩ := c.exists_header
  have hopen' : openSealed type c.found.payloadLength (c.bytes ++ tail) = .ok c.found := by
    rw [openSealed_append (Nat.le_of_eq c.whole), hopen]
  rw [hbytes, List.append_assoc] at hopen' ⊢
  rw [next_header offset type hbound, if_neg, hopen']
  · rfl
  · rw [List.length_append]
    omega

/-- The records of complete frames that lie one after the other, each with the offset of its frame. -/
def located (offset : Nat) : List Complete → List (Nat × LogRecord)
  | [] => []
  | c :: rest => (offset, c.record) :: located (offset + c.bytes.length) rest

@[simp] theorem map_snd_located (offset : Nat) (cs : List Complete) :
    (located offset cs).map Prod.snd = cs.map record := by
  induction cs generalizing offset with
  | nil => rfl
  | cons c rest ih => rw [located, List.map_cons, ih, List.map_cons]

theorem located_append (offset : Nat) (cs ds : List Complete) :
    located offset (cs ++ ds) =
      located offset cs ++ located (offset + (cs.flatMap bytes).length) ds := by
  induction cs generalizing offset with
  | nil => rfl
  | cons c rest ih =>
      rw [List.cons_append, located, ih, located, List.flatMap_cons, List.length_append,
        Nat.add_assoc, List.cons_append]

/-- **Complete frames at the front of a log are found one after the other**, whatever follows them. -/
theorem scan_append (offset : Nat) (cs : List Complete) (tail : Bytes) :
    scan offset (cs.flatMap bytes ++ tail) =
      (fun rest => (located offset cs ++ rest.1, rest.2)) <$>
        scan (offset + (cs.flatMap bytes).length) tail := by
  induction cs generalizing offset with
  | nil =>
      show scan offset tail = _ <$> scan offset tail
      cases scan offset tail <;> rfl
  | cons c rest ih =>
      rw [List.flatMap_cons, List.append_assoc, scan_of_next_some (c.next_append offset _), c.whole,
        List.drop_left, ih, List.length_append, Nat.add_assoc]
      cases scan (offset + (c.bytes.length + (rest.flatMap bytes).length)) tail <;> rfl

/-- Complete frames with nothing behind them are all that the scan finds. -/
theorem scan_flatMap (offset : Nat) (cs : List Complete) :
    scan offset (cs.flatMap bytes) = .ok (located offset cs, offset + (cs.flatMap bytes).length) := by
  have hscan := scan_append offset cs []
  rw [List.append_nil, scan_of_next (next_nil _)] at hscan
  rw [hscan]
  simp [Functor.map, Except.map]

/-- The frames of records are complete. -/
theorem exists_ofRecords {rs : List LogRecord} (hrs : ∀ r ∈ rs, r.payload.length < 4294967296) :
    ∃ cs : List Complete, cs.map record = rs ∧ cs.flatMap bytes = rs.flatMap Frame.ofRecord := by
  induction rs with
  | nil => exact ⟨[], rfl, rfl⟩
  | cons r rest ih =>
      obtain ⟨cs, hrecords, hbytes⟩ := ih fun x hx => hrs x (List.mem_cons_of_mem _ hx)
      refine ⟨.ofRecord r (hrs r List.mem_cons_self) :: cs, ?_, ?_⟩
      · rw [List.map_cons, hrecords]
        rfl
      · rw [List.flatMap_cons, hbytes]
        rfl

/-- The frame at the front of bytes, without what follows it. -/
def ofNext {offset : Nat} {bs : Bytes} {f : Found} (h : next offset bs = .ok (some f)) : Complete where
  bytes := bs.take f.size
  found := f
  read := next_take h 0
  whole := by rw [List.length_take, Nat.min_eq_left (size_le_of_next h)]

end Complete

/-- **The scan of a log** of whole frames, followed by something that is no frame. -/
theorem scan_frames (offset : Nat) {rs : List LogRecord}
    (hrs : ∀ r ∈ rs, r.payload.length < 4294967296) {tail : Bytes}
    (htail : ∀ offset, next offset tail = .ok none) :
    ∃ records, scan offset (rs.flatMap ofRecord ++ tail) =
        .ok (records, offset + (rs.flatMap ofRecord).length) ∧ records.map Prod.snd = rs := by
  obtain ⟨cs, hrecords, hbytes⟩ := Complete.exists_ofRecords hrs
  refine ⟨Complete.located offset cs, ?_, by rw [Complete.map_snd_located, hrecords]⟩
  rw [← hbytes, Complete.scan_append, scan_of_next (htail _)]
  simp [Functor.map, Except.map]

/-- A log whose whole frames are followed by something that is refused is refused as a whole. -/
theorem scan_frames_error (offset : Nat) {rs : List LogRecord}
    (hrs : ∀ r ∈ rs, r.payload.length < 4294967296) {tail : Bytes} {e : TxnError}
    (htail : next (offset + (rs.flatMap ofRecord).length) tail = .error e) :
    scan offset (rs.flatMap ofRecord ++ tail) = .error e := by
  obtain ⟨cs, -, hbytes⟩ := Complete.exists_ofRecords hrs
  rw [← hbytes] at htail ⊢
  rw [Complete.scan_append, scan_of_next_error htail]
  rfl

/-- **A scan that succeeds has passed complete frames**, and stops before something that is no frame. -/
theorem complete_of_scan {offset : Nat} {bs : Bytes} {records : List (Nat × LogRecord)} {stop : Nat}
    (h : scan offset bs = .ok (records, stop)) :
    ∃ (cs : List Complete) (tail : Bytes), bs = cs.flatMap Complete.bytes ++ tail ∧
      records = Complete.located offset cs ∧ stop = offset + (cs.flatMap Complete.bytes).length ∧
      next stop tail = .ok none := by
  fun_induction scan offset bs generalizing records with
  | case1 => cases h
  | case2 offset bs hnext =>
      cases h
      exact ⟨[], bs, rfl, rfl, rfl, hnext⟩
  | case3 => cases h
  | case4 offset bs f hnext others stop' hrest ih =>
      cases h
      obtain ⟨cs, tail, hbytes, rfl, rfl, htail⟩ := ih hrest
      have hsize : (Complete.ofNext hnext).bytes.length = f.size := (Complete.ofNext hnext).whole.symm
      refine ⟨.ofNext hnext :: cs, tail, ?_, ?_, ?_, htail⟩
      · rw [List.flatMap_cons, List.append_assoc, ← hbytes]
        exact (List.take_append_drop f.size bs).symm
      · rw [Complete.located, hsize]
        rfl
      · rw [List.flatMap_cons, List.length_append, hsize, Nat.add_assoc]

end Frame

end Multiversion
