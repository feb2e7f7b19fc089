import Multiversion.Bytes

/-!
# CBOR item heads

Record payloads are CBOR.  Every item starts with a head: a major type, and an argument of the
shortest width that holds it.  Writing (`Head.encode`) uses definite lengths and shortest arguments;
reading (`Head.pull`) takes any width, and an indefinite length wherever one may stand.
-/

namespace Multiversion
namespace Cbor

/-- The head of an item.  A length that is absent is indefinite. -/
inductive Head where
  | positive (n : Nat)
  -- The integer `-1 - n`.
  | negative (n : Nat)
  | bytes (length : Option Nat)
  | text (length : Option Nat)
  | array (length : Option Nat)
  | map (length : Option Nat)
  | tag (n : Nat)
  | simple (n : Nat)
  | float
  -- The end of an indefinite length.
  | stop
  deriving DecidableEq, Repr

/-- The simple values that have a meaning here. -/
def falseValue : Nat := 20

/-- The simple value of truth. -/
def trueValue : Nat := 21

/-- The simple value of absence. -/
def nullValue : Nat := 22

/-- The simple value of an undefined item, read as absence. -/
def undefinedValue : Nat := 23

namespace Head

/-- A head of major type `major` with argument `n`, in the shortest width. -/
def encode (major n : Nat) : Bytes :=
  let first (info : Nat) : UInt8 := UInt8.ofNat (32 * major + info)
  if n < 24 then [first n]
  else if n < 256 then first 24 :: Bytes.bigEndian 1 n
  else if n < 65536 then first 25 :: Bytes.bigEndian 2 n
  else if n < 4294967296 then first 26 :: Bytes.bigEndian 4 n
  else first 27 :: Bytes.bigEndian 8 n

/-- Reads `width` bytes as a big-endian number. -/
def pullNumber (width : Nat) (input : Bytes) : Option (Nat × Bytes) :=
  if width ≤ input.length then
    some (Bytes.ofBigEndian (input.take width), input.drop width)
  else
    none

/-- Reads the argument that the low five bits of a first byte announce; absent if indefinite. -/
def pullArgument (info : Nat) (input : Bytes) : Option (Option Nat × Bytes) :=
  if info < 24 then some (some info, input)
  else if info = 24 then (pullNumber 1 input).map fun (n, rest) => (some n, rest)
  else if info = 25 then (pullNumber 2 input).map fun (n, rest) => (some n, rest)
  else if info = 26 then (pullNumber 4 input).map fun (n, rest) => (some n, rest)
  else if info = 27 then (pullNumber 8 input).map fun (n, rest) => (some n, rest)
  else if info = 31 then some (none, input)
  else none

/-- The head of a major type with an argument.  Integers and tags need one, and the arguments of
type seven are told apart by their width. -/
def ofArgument (major info : Nat) (argument : Option Nat) : Option Head :=
  match major, argument with
  | 0, some n => some (positive n)
  | 1, some n => some (negative n)
  | 2, length => some (bytes length)
  | 3, length => some (text length)
  | 4, length => some (array length)
  | 5, length => some (map length)
  | 6, some n => some (tag n)
  | 7, some n => some (if info ≤ 24 then simple n else float)
  | 7, none => some stop
  | _, _ => none

/-- Reads the head at the front of the input. -/
def pull : Bytes → Option (Head × Bytes)
  | [] => none
  | b :: input =>
      let major := b.toNat / 32
      let info := b.toNat % 32
      match pullArgument info input with
      | none => none
      | some (argument, rest) => (ofArgument major info argument).map (·, rest)

end Head
end Cbor
end Multiversion
