import Multiversion.Cbor.Head

/-!
# Reading CBOR

Readers take an item from the front of the input and leave the rest.  They are lenient: tags before
an item are passed over, lengths may be indefinite, texts may come in segments, and an unsigned
integer may be written as a byte string under the bignum tag.  Nesting is limited, so a hostile
payload cannot exhaust the reader.

* `unsigned`, `text`, `bool`, `optional`, `texts`, `variant` — items of a known type;
* `openArray`, `element`, `fields` — sequences and records;
* `skip` — an item of any type.
-/

namespace Multiversion
namespace Cbor

/-- Takes an item from the front of the input. -/
abbrev Reader := StateT Bytes Option

namespace Reader

/-- Reads one head. -/
def head : Reader Head := fun input => Head.pull input

/-- Fails unless the condition holds. -/
def require (condition : Bool) : Reader Unit := if condition then pure () else failure

/-- Takes exactly `n` bytes. -/
def take (n : Nat) : Reader Bytes := fun input =>
  if n ≤ input.length then some (input.take n, input.drop n) else none

/-- Reads the next head that is not a tag; `fuel` bounds the number of heads. -/
def untaggedWithin : (fuel : Nat) → Reader Head
  | 0 => failure
  | fuel + 1 => do
      match ← head with
      | .tag _ => untaggedWithin fuel
      | h => pure h

/-- Reads the next head that is not a tag. -/
def untagged : Reader Head := fun input => untaggedWithin input.length input

/-- Collects the segments of an indefinite string at a nesting depth; `lengthOf` recognises the heads
that may stand inside. -/
def segmentsWithin (lengthOf : Head → Option (Option Nat)) :
    (fuel : Nat) → (nested : Nat) → Reader (List Bytes)
  | 0, _ => failure
  | fuel + 1, nested => do
      match ← head with
      | .stop => if nested ≤ 1 then pure [] else segmentsWithin lengthOf fuel (nested - 1)
      | h =>
          match lengthOf h with
          | none => failure
          | some none => segmentsWithin lengthOf fuel (nested + 1)
          | some (some n) => do
              let segment ← take n
              let others ← segmentsWithin lengthOf fuel nested
              pure (segment :: others)

/-- The segments of a string whose length has been read. -/
def segments (lengthOf : Head → Option (Option Nat)) : Option Nat → Reader (List Bytes)
  | some n => do
      let segment ← take n
      pure [segment]
  | none => fun input => segmentsWithin lengthOf input.length 1 input

/-- The length in the head of a byte string. -/
def bytesLength : Head → Option (Option Nat)
  | .bytes length => some length
  | _ => none

/-- The length in the head of a text. -/
def textLength : Head → Option (Option Nat)
  | .text length => some length
  | _ => none

/-- The bytes of a byte string whose length has been read. -/
def bytesBody (length : Option Nat) : Reader Bytes := do
  let parts ← segments bytesLength length
  pure parts.flatten

/-- The text that UTF-8 bytes stand for. -/
def decodeText (bs : Bytes) : Option String := String.fromUTF8? bs.toByteArray

/-- A text whose length has been read; every segment is UTF-8 on its own. -/
def textBody (length : Option Nat) : Reader String := do
  let parts ← segments textLength length
  let texts ← parts.mapM fun part => (decodeText part : Option String)
  pure (String.join texts)

/-- The magnitude of a bignum: at most sixteen bytes after leading zeros. -/
def bignumBody : Reader Nat := do
  match ← head with
  | .bytes length => do
      let digits := (← bytesBody length).dropWhile (· = 0)
      require (digits.length ≤ 16)
      pure (Bytes.ofBigEndian digits)
  | _ => failure

/-- Tag of a bignum. -/
def positiveBignumTag : Nat := 2

/-- Tag of a negative bignum. -/
def negativeBignumTag : Nat := 3

/-- Reads an integer that is not negative; `fuel` bounds the number of tags passed over. -/
def naturalWithin : (fuel : Nat) → Reader Nat
  | 0 => failure
  | fuel + 1 => do
      match ← head with
      | .positive n => pure n
      | .tag t =>
          if t = positiveBignumTag then bignumBody
          else if t = negativeBignumTag then failure
          else naturalWithin fuel
      | _ => failure

/-- Reads an unsigned 64-bit integer. -/
def unsigned : Reader UInt64 := do
  let n ← fun input => naturalWithin input.length input
  require (n < 18446744073709551616)
  pure (UInt64.ofNat n)

/-- Reads a text. -/
def text : Reader String := do
  match ← untagged with
  | .text length => textBody length
  | _ => failure

/-- Reads a truth value. -/
def bool : Reader Bool := do
  match ← untagged with
  | .simple n =>
      if n = falseValue then pure false else if n = trueValue then pure true else failure
  | _ => failure

/-- Reads an item that may be absent: null and undefined stand for none. -/
def optional {α : Type} (item : Reader α) : Reader (Option α) := do
  let input ← get
  match ← head with
  | .simple n =>
      if n = nullValue ∨ n = undefinedValue then pure none
      else do
        set input
        some <$> item
  | _ => do
      set input
      some <$> item

/-- Consumes the end of an indefinite length, if it comes next. -/
def atStop : Reader Bool := do
  let input ← get
  match ← head with
  | .stop => pure true
  | _ => do
      set input
      pure false

/-- Opens a sequence and returns its length. -/
def openArray : Reader (Option Nat) := do
  match ← untagged with
  | .array length => pure length
  | _ => failure

/-- Reads one element of a sequence of which `left` elements are left. -/
def element {α : Type} (left : Option Nat) (item : Reader α) : Reader (α × Option Nat) := do
  match left with
  | some 0 => failure
  | some (n + 1) => do
      let a ← item
      pure (a, some n)
  | none => do
      if ← atStop then failure
      let a ← item
      pure (a, none)

/-- Reads a sequence that starts with two elements; further elements are left unread. -/
def pair {α β : Type} (first : Reader α) (second : Reader β) : Reader (α × β) := do
  let left ← openArray
  let (a, left) ← element left first
  let (b, _) ← element left second
  pure (a, b)

/-- Reads an item `n` times. -/
def times {α : Type} (item : Reader α) : (n : Nat) → Reader (List α)
  | 0 => pure []
  | n + 1 => do
      let a ← item
      let others ← times item n
      pure (a :: others)

/-- Reads items until the end of an indefinite length; `fuel` bounds their number. -/
def untilStop {α : Type} (item : Reader α) : (fuel : Nat) → Reader (List α)
  | 0 => failure
  | fuel + 1 => do
      if ← atStop then
        pure []
      else
        let a ← item
        let others ← untilStop item fuel
        pure (a :: others)

/-- Reads the items of a sequence whose length has been read. -/
def items {α : Type} (item : Reader α) : Option Nat → Reader (List α)
  | some n => times item n
  | none => fun input => untilStop item input.length input

/-- Reads a list of texts.  An empty byte string is an empty list. -/
def texts : Reader (List String) := do
  match ← untagged with
  | .array length => items text length
  | .bytes length => do
      require (← bytesBody length).isEmpty
      pure []
  | _ => failure

/-- The longest name that a record field or a variant may have. -/
def maxNameLength : Nat := 4096

/-- Reads the bytes of a name: a text or byte string of definite length.  A text that is not UTF-8 is
refused. -/
def name : Reader Bytes := do
  match ← untagged with
  | .text (some n) => do
      require (n ≤ maxNameLength)
      let bs ← take n
      require (decodeText bs).isSome
      pure bs
  | .bytes (some n) => do
      require (n ≤ maxNameLength)
      take n
  | _ => failure

/-- Reads the name of a variant: a text, or the key of a map of one entry. -/
def variantName : Reader Bytes := do
  let rec findWithin : (fuel : Nat) → Reader Bytes
    | 0 => failure
    | fuel + 1 => do
        let input ← get
        match ← head with
        | .tag _ => findWithin fuel
        | .map (some 1) => name
        | .text _ => do
            set input
            name
        | _ => failure
  fun input => findWithin input.length input

/-- Reads a variant by its name. -/
def variant {α : Type} (ofName? : String → Option α) : Reader α := do
  let bs ← variantName
  match (decodeText bs).bind ofName? with
  | some a => pure a
  | none => failure

/-- The magnitude from which on a negative integer does not fit 128 bits. -/
def negativeBound : Nat := 0x80000000000000000000000000000000

/-- The length of a bignum that is passed over as an integer: an undivided byte string of at most
sixteen bytes under a bignum tag. -/
def shortBignum? (tag : Nat) : Head → Option Nat
  | .bytes (some n) =>
      if (tag = positiveBignumTag ∨ tag = negativeBignumTag) ∧ n ≤ 16 then some n else none
  | _ => none

/-- Passes over the item under a tag; `nested` passes over an item one level further in, if there may
be one.  A short bignum is an integer, which takes no level but has to fit 128 bits; under any other
tag, and under a bignum tag with anything else, the item is one level further in. -/
def skipTagged (nested : Option (Reader Unit)) (tag : Nat) : Reader Unit := do
  let input ← get
  match shortBignum? tag (← head) with
  | some n => do
      let digits ← take n
      require (tag = positiveBignumTag || Bytes.ofBigEndian digits < negativeBound)
  | none => do
      set input
      let item ← nested
      item

/-- Passes over one item; `nested` passes over an item one level further in, if there may be one. -/
def skipWith (nested : Option (Reader Unit)) : Reader Unit := do
  match ← head with
  | .positive _ | .negative _ | .float => pure ()
  | .simple n => require (falseValue ≤ n && n ≤ undefinedValue)
  | .bytes length => do
      let _ ← bytesBody length
  | .text length => do
      let _ ← textBody length
  | .array length => do
      let item ← nested
      let _ ← items item length
  | .map length => do
      let item ← nested
      let _ ← items (do item; item) length
  | .tag t => skipTagged nested t
  | .stop => failure

/-- Passes over one item with at most `depth` levels of nesting, where an empty sequence is a level as
well. -/
def skip : (depth : Nat) → Reader Unit
  | 0 => skipWith none
  | depth + 1 => skipWith (some (skip depth))

/-- Reads a record: `field` receives what has been read so far and the name of the next field, and
reads that field's value. -/
def fields {α : Type} (field : α → Bytes → Reader α) (start : α) : Reader α := do
  match ← untagged with
  | .map (some n) => counted n start
  | .map none => fun input => untilEnd input.length start input
  | _ => failure
where
  counted : Nat → α → Reader α
    | 0, a => pure a
    | n + 1, a => do
        let a ← field a (← name)
        counted n a
  untilEnd : Nat → α → Reader α
    | 0, _ => failure
    | fuel + 1, a => do
        if ← atStop then
          pure a
        else
          let a ← field a (← name)
          untilEnd fuel a

end Reader
end Cbor
end Multiversion
