import Multiversion.Cbor.Reader
import Multiversion.Log.Payload

/-!
# Reading back what was written

`Reads p bs a` says that a reader takes exactly `bs` from the front of any input and returns `a`.  The
predicate goes along with sequencing, so that every reader needs one lemma about its own encoding:

* `Reads.head`, `Reads.unsigned`, `Reads.text`, `Reads.bool`, `Reads.optional`, `Reads.variant`,
  `Reads.texts` — items;
* `Reads.pair`, `Reads.fields` — sequences and records.
-/

namespace Multiversion
namespace Cbor

/-- A reader takes exactly these bytes from the front of any input. -/
def Reads {α : Type} (p : Reader α) (bs : Bytes) (a : α) : Prop :=
  ∀ rest, p.run (bs ++ rest) = some (a, rest)

namespace Head

/-- The low five bits of the first byte of a head. -/
def infoOf (n : Nat) : Nat :=
  if n < 24 then n else if n < 256 then 24 else if n < 65536 then 25 else if n < 4294967296 then 26
  else 27

/-- The bytes of a head after the first. -/
def argumentOf (n : Nat) : Bytes :=
  if n < 24 then [] else if n < 256 then Bytes.bigEndian 1 n
  else if n < 65536 then Bytes.bigEndian 2 n else if n < 4294967296 then Bytes.bigEndian 4 n
  else Bytes.bigEndian 8 n

theorem encode_eq (major n : Nat) :
    encode major n = UInt8.ofNat (32 * major + infoOf n) :: argumentOf n := by
  unfold encode infoOf argumentOf
  by_cases h24 : n < 24
  · simp [h24]
  by_cases h256 : n < 256
  · simp [h24, h256]
  by_cases h65536 : n < 65536
  · simp [h24, h256, h65536]
  by_cases hword : n < 4294967296
  · simp [h24, h256, h65536, hword]
  · simp [h24, h256, h65536, hword]

theorem infoOf_lt (n : Nat) : infoOf n < 32 := by
  unfold infoOf
  split
  · omega
  · split <;> (try split) <;> (try split) <;> omega

theorem pullNumber_bigEndian {width n : Nat} (hn : n < Bytes.bound width) (rest : Bytes) :
    pullNumber width (Bytes.bigEndian width n ++ rest) = some (n, rest) := by
  have hlength := Bytes.length_bigEndian width n
  have hroom : width ≤ (Bytes.bigEndian width n ++ rest).length := by
    rw [List.length_append, hlength]
    omega
  rw [pullNumber, if_pos hroom, List.take_left' hlength, List.drop_left' hlength,
    Bytes.ofBigEndian_bigEndian, Nat.mod_eq_of_lt hn]

/-- The first byte of a head holds the major type and the low bits. -/
theorem pull_cons {major info : Nat} (hmajor : major < 8) (hinfo : info < 32) (input : Bytes) :
    pull (UInt8.ofNat (32 * major + info) :: input) =
      (pullArgument info input).bind fun (argument, rest) =>
        (ofArgument major info argument).map (·, rest) := by
  have hbyte : (UInt8.ofNat (32 * major + info)).toNat = 32 * major + info := by
    rw [UInt8.toNat_ofNat']
    omega
  have hdiv : (32 * major + info) / 32 = major := by omega
  have hmod : (32 * major + info) % 32 = info := by omega
  rw [pull, hbyte, hdiv, hmod]
  cases pullArgument info input <;> rfl

theorem pullArgument_argumentOf {n : Nat} (hn : n < 18446744073709551616) (rest : Bytes) :
    pullArgument (infoOf n) (argumentOf n ++ rest) = some (some n, rest) := by
  unfold infoOf argumentOf
  by_cases h24 : n < 24
  · simp [h24, pullArgument]
  by_cases h256 : n < 256
  · have hpull : pullNumber 1 (Bytes.bigEndian 1 n ++ rest) = some (n, rest) :=
      pullNumber_bigEndian h256 rest
    simp [h24, h256, pullArgument, hpull]
  by_cases h65536 : n < 65536
  · have hpull : pullNumber 2 (Bytes.bigEndian 2 n ++ rest) = some (n, rest) :=
      pullNumber_bigEndian h65536 rest
    simp [h24, h256, h65536, pullArgument, hpull]
  by_cases hword : n < 4294967296
  · have hpull : pullNumber 4 (Bytes.bigEndian 4 n ++ rest) = some (n, rest) :=
      pullNumber_bigEndian hword rest
    simp [h24, h256, h65536, hword, pullArgument, hpull]
  · have hpull : pullNumber 8 (Bytes.bigEndian 8 n ++ rest) = some (n, rest) :=
      pullNumber_bigEndian hn rest
    simp [h24, h256, h65536, hword, pullArgument, hpull]

theorem pull_encode {major n : Nat} (hmajor : major < 8) (hn : n < 18446744073709551616)
    (rest : Bytes) :
    pull (encode major n ++ rest) = (ofArgument major (infoOf n) (some n)).map (·, rest) := by
  rw [encode_eq, List.cons_append, pull_cons hmajor (infoOf_lt n), pullArgument_argumentOf hn]
  rfl

end Head

namespace Reads

variable {α β : Type} {p : Reader α} {bs bs' : Bytes} {a : α} {b : β}

theorem pure (a : α) : Reads (Pure.pure a) [] a := fun _ => rfl

/-- **Readers in sequence** take the concatenation of what they take. -/
theorem bind {f : α → Reader β} (hp : Reads p bs a) (hf : Reads (f a) bs' b) :
    Reads (p >>= f) (bs ++ bs') b := by
  intro rest
  rw [List.append_assoc, StateT.run_bind, hp (bs' ++ rest)]
  exact hf rest

theorem then_pure {f : α → Reader β} (hp : Reads p bs a) (hf : Reads (f a) [] b) :
    Reads (p >>= f) bs b := by
  have hbind := hp.bind hf
  rwa [List.append_nil] at hbind

theorem map (f : α → β) (hp : Reads p bs a) : Reads (f <$> p) bs (f a) := by
  intro rest
  rw [StateT.run_map, hp rest]
  rfl

theorem require {condition : Bool} (h : condition = true) :
    Reads (Reader.require condition) [] () := by
  intro rest
  rw [h]
  rfl

theorem take (bs : Bytes) : Reads (Reader.take bs.length) bs bs := by
  intro rest
  have hroom : bs.length ≤ (bs ++ rest).length := by simp
  show (if _ then _ else _) = _
  rw [if_pos hroom, List.take_left, List.drop_left]

/-- A head of a major type, read back. -/
theorem head {major n : Nat} {h : Head} (hmajor : major < 8) (hn : n < 18446744073709551616)
    (hhead : Head.ofArgument major (Head.infoOf n) (some n) = some h) :
    Reads Reader.head (Head.encode major n) h := by
  intro rest
  show Head.pull _ = _
  rw [Head.pull_encode hmajor hn, hhead]
  rfl

/-- A head that is not a tag ends the search for one. -/
theorem untagged {h : Head} (hp : Reads Reader.head bs h) (hne : bs ≠ [])
    (htag : ∀ n, h ≠ .tag n) : Reads Reader.untagged bs h := by
  intro rest
  obtain ⟨fuel, hfuel⟩ : ∃ fuel, (bs ++ rest).length = fuel + 1 := by
    obtain ⟨b, bs, rfl⟩ := List.exists_cons_of_ne_nil hne
    exact ⟨(bs ++ rest).length, by simp⟩
  show (Reader.untaggedWithin (bs ++ rest).length).run (bs ++ rest) = _
  rw [hfuel, Reader.untaggedWithin, StateT.run_bind, hp rest]
  cases h with
  | tag n => exact absurd rfl (htag n)
  | _ => rfl

theorem unsigned (n : UInt64) : Reads Reader.unsigned (Cbor.unsigned n) n := by
  have hhead : Reads Reader.head (Cbor.unsigned n) (.positive n.toNat) :=
    head (by omega) n.toNat_lt rfl
  have hnatural : Reads (fun input => Reader.naturalWithin input.length input) (Cbor.unsigned n)
      n.toNat := by
    intro rest
    obtain ⟨fuel, hfuel⟩ : ∃ fuel, (Cbor.unsigned n ++ rest).length = fuel + 1 := by
      rw [Cbor.unsigned, Head.encode_eq]
      exact ⟨(Head.argumentOf n.toNat ++ rest).length, by simp⟩
    show (Reader.naturalWithin (Cbor.unsigned n ++ rest).length).run _ = _
    rw [hfuel, Reader.naturalWithin, StateT.run_bind, hhead rest]
    rfl
  have hrest : Reads (do
      Reader.require (n.toNat < 18446744073709551616)
      Pure.pure (UInt64.ofNat n.toNat)) [] n := by
    rw [UInt64.ofNat_toNat]
    exact (require (decide_eq_true n.toNat_lt)).then_pure (pure n)
  exact hnatural.then_pure hrest

theorem decodeText_ofText (s : String) : Reader.decodeText (Bytes.ofText s) = some s := by
  have hbytes : (Bytes.ofText s).toByteArray = s.toByteArray := by
    rw [Bytes.ofText, String.toUTF8_eq_toByteArray]
    exact ByteArray.ext (by simp)
  rw [Reader.decodeText, hbytes, String.fromUTF8?, dif_pos s.isValidUTF8]
  rfl

theorem text {s : String} (hs : (Bytes.ofText s).length < 18446744073709551616) :
    Reads Reader.text (Cbor.text s) s := by
  have hhead : Reads Reader.untagged (Head.encode 3 (Bytes.ofText s).length)
      (.text (some (Bytes.ofText s).length)) :=
    untagged (head (by omega) hs rfl) (by simp [Head.encode_eq]) (by simp)
  have hbody : Reads (Reader.textBody (some (Bytes.ofText s).length)) (Bytes.ofText s) s := by
    have hsegments : Reads (Reader.segments Reader.textLength (some (Bytes.ofText s).length))
        (Bytes.ofText s) [Bytes.ofText s] := (take _).then_pure (pure _)
    refine hsegments.then_pure ?_
    intro rest
    simp [decodeText_ofText, String.join]
  exact hhead.bind hbody

theorem bool (b : Bool) : Reads Reader.bool (Cbor.bool b) b := by
  cases b with
  | false =>
      have hhead : Reads Reader.untagged (Cbor.bool false) (.simple falseValue) :=
        untagged (head (by omega) (by decide) rfl) (by simp [Cbor.bool, Head.encode_eq]) (by simp)
      exact hhead.then_pure (pure false)
  | true =>
      have hhead : Reads Reader.untagged (Cbor.bool true) (.simple trueValue) :=
        untagged (head (by omega) (by decide) rfl) (by simp [Cbor.bool, Head.encode_eq]) (by simp)
      exact hhead.then_pure (pure true)

theorem optional (make : UInt64 → α) (n : Option UInt64) :
    Reads (Reader.optional (make <$> Reader.unsigned)) (Cbor.optional n) (n.map make) := by
  intro rest
  cases n with
  | none =>
      have hhead : Reads Reader.head (Head.encode 7 nullValue) (.simple nullValue) :=
        head (by omega) (by decide) rfl
      have hread := hhead rest
      rw [Reader.optional, StateT.run_bind, StateT.run_get, pure_bind, StateT.run_bind,
        Cbor.optional, hread]
      rfl
  | some n =>
      have hhead : Reads Reader.head (Cbor.unsigned n) (.positive n.toNat) :=
        head (by omega) n.toNat_lt rfl
      have hread := hhead rest
      have hitem := ((unsigned n).map make).map some rest
      rw [Reader.optional, StateT.run_bind, StateT.run_get, pure_bind, StateT.run_bind,
        Cbor.optional, hread]
      exact hitem

theorem name {s : String} (hs : (Bytes.ofText s).length ≤ Reader.maxNameLength) :
    Reads Reader.name (Cbor.text s) (Bytes.ofText s) := by
  have hlength : (Bytes.ofText s).length < 18446744073709551616 :=
    Nat.lt_of_le_of_lt hs (by decide)
  have hhead : Reads Reader.untagged (Head.encode 3 (Bytes.ofText s).length)
      (.text (some (Bytes.ofText s).length)) :=
    untagged (head (by omega) hlength rfl) (by simp [Head.encode_eq]) (by simp)
  have hutf8 : (Reader.decodeText (Bytes.ofText s)).isSome = true := by
    rw [decodeText_ofText]
    rfl
  have hbody : Reads (Reader.take (Bytes.ofText s).length >>= fun bs =>
      Reader.require (Reader.decodeText bs).isSome >>= fun _ => Pure.pure bs)
      (Bytes.ofText s) (Bytes.ofText s) :=
    (take _).then_pure ((require hutf8).then_pure (pure _))
  refine hhead.bind ?_
  exact (require (decide_eq_true hs)).bind hbody

theorem variantName {s : String} (hs : (Bytes.ofText s).length ≤ Reader.maxNameLength) :
    Reads Reader.variantName (Cbor.text s) (Bytes.ofText s) := by
  intro rest
  have hlength : (Bytes.ofText s).length < 18446744073709551616 :=
    Nat.lt_of_le_of_lt hs (by decide)
  obtain ⟨fuel, hfuel⟩ : ∃ fuel, (Cbor.text s ++ rest).length = fuel + 1 := by
    rw [Cbor.text, Head.encode_eq]
    exact ⟨_, rfl⟩
  have hhead : Reads Reader.head (Head.encode 3 (Bytes.ofText s).length)
      (.text (some (Bytes.ofText s).length)) := head (by omega) hlength rfl
  have hread := hhead (Bytes.ofText s ++ rest)
  rw [← List.append_assoc] at hread
  have hname := name hs rest
  show (Reader.variantName.findWithin (Cbor.text s ++ rest).length).run _ = _
  rw [hfuel, Reader.variantName.findWithin]
  show (Reader.head.run (Cbor.text s ++ rest)).bind _ = _
  rw [show Reader.head.run (Cbor.text s ++ rest) = _ from hread]
  exact hname

theorem variant {ofName? : String → Option α} {s : String}
    (hs : (Bytes.ofText s).length ≤ Reader.maxNameLength) (ha : ofName? s = some a) :
    Reads (Reader.variant ofName?) (Cbor.text s) a := by
  refine (variantName hs).then_pure ?_
  rw [decodeText_ofText, Option.bind_some, ha]
  exact pure a

theorem times {write : α → Bytes} {as : List α} (h : ∀ a ∈ as, Reads p (write a) a) :
    Reads (Reader.times p as.length) (as.flatMap write) as := by
  induction as with
  | nil => exact pure []
  | cons a rest ih =>
      have hrest := ih fun x hx => h x (List.mem_cons_of_mem _ hx)
      exact (h a List.mem_cons_self).bind (hrest.then_pure (pure (a :: rest)))

theorem texts {ss : List String} (hlength : ss.length < 18446744073709551616)
    (h : ∀ s ∈ ss, (Bytes.ofText s).length < 18446744073709551616) :
    Reads Reader.texts (Cbor.array ss.length ++ ss.flatMap Cbor.text) ss := by
  have hhead : Reads Reader.untagged (Cbor.array ss.length) (.array (some ss.length)) :=
    untagged (head (by omega) hlength rfl) (by simp [Cbor.array, Head.encode_eq]) (by simp)
  exact hhead.bind (times fun s hs => text (h s hs))

theorem pair {q : Reader β} (hp : Reads p bs a) (hq : Reads q bs' b) :
    Reads (Reader.pair p q) (Cbor.array 2 ++ bs ++ bs') (a, b) := by
  have hhead : Reads Reader.openArray (Cbor.array 2) (some 2) := by
    have hhead : Reads Reader.untagged (Cbor.array 2) (.array (some 2)) :=
      untagged (head (by omega) (by decide) rfl) (by simp [Cbor.array, Head.encode_eq]) (by simp)
    exact hhead.then_pure (pure (some 2))
  have hfirst : Reads (Reader.element (some 2) p) bs (a, some 1) := hp.then_pure (pure _)
  have hsecond : Reads (Reader.element (some 1) q) bs' (b, some 0) := hq.then_pure (pure _)
  rw [List.append_assoc]
  exact hhead.bind (hfirst.bind (hsecond.then_pure (pure (a, b))))

end Reads

end Cbor
end Multiversion
