/-!
# Byte strings

Row keys, cell values and log contents are lists of bytes.  This module fixes the two integer
layouts that the binary formats use, and the quoted text under which a row key appears in a
message:

* `ofText` — the UTF-8 bytes of a text;
* `littleEndian` / `ofLittleEndian` — the fixed-width layout of log frames and packed rows;
* `bigEndian` / `ofBigEndian` — the fixed-width layout of item heads in record payloads;
* `toHex` / `ofHex?` — two hexadecimal digits for each byte;
* `quoted` — printable ASCII as it is, everything else escaped.
-/

namespace Multiversion

/-- A byte string.  Row keys are ordered lexicographically, byte by byte. -/
abbrev Bytes := List UInt8

namespace Bytes

/-- The UTF-8 bytes of a text. -/
def ofText (s : String) : Bytes := s.toUTF8.data.toList

/-- The `width` low bytes of `n`, least significant first. -/
def littleEndian : (width : Nat) → (n : Nat) → Bytes
  | 0, _ => []
  | width + 1, n => UInt8.ofNat n :: littleEndian width (n / 256)

/-- The number whose bytes, least significant first, are given. -/
def ofLittleEndian : Bytes → Nat
  | [] => 0
  | b :: rest => b.toNat + 256 * ofLittleEndian rest

@[simp] theorem length_littleEndian (width n : Nat) : (littleEndian width n).length = width := by
  induction width generalizing n with
  | zero => rfl
  | succ width ih => simp [littleEndian, ih]

/-- The number of byte strings of a width. -/
def bound : (width : Nat) → Nat
  | 0 => 1
  | width + 1 => 256 * bound width

/-- Reading back the low bytes of a number gives the number modulo the width's range. -/
theorem ofLittleEndian_littleEndian (width n : Nat) :
    ofLittleEndian (littleEndian width n) = n % bound width := by
  induction width generalizing n with
  | zero => simp [littleEndian, ofLittleEndian, bound, Nat.mod_one]
  | succ width ih =>
      rw [littleEndian, ofLittleEndian, ih, bound, Nat.mod_mul]
      rfl

/-- The `width` low bytes of `n`, most significant first. -/
def bigEndian (width n : Nat) : Bytes :=
  (littleEndian width n).reverse

/-- The number whose bytes, most significant first, are given. -/
def ofBigEndian (bs : Bytes) : Nat :=
  ofLittleEndian bs.reverse

@[simp] theorem length_bigEndian (width n : Nat) : (bigEndian width n).length = width := by
  simp [bigEndian]

theorem ofBigEndian_bigEndian (width n : Nat) :
    ofBigEndian (bigEndian width n) = n % bound width := by
  simp [bigEndian, ofBigEndian, ofLittleEndian_littleEndian]

/-- One lower-case hexadecimal digit. -/
def hexDigit (n : Nat) : Char :=
  if n < 10 then Char.ofNat (48 + n) else Char.ofNat (87 + n)

/-- The two lower-case hexadecimal digits of a byte. -/
def hexByte (b : UInt8) : List Char :=
  [hexDigit (b.toNat / 16), hexDigit (b.toNat % 16)]

/-- The lower-case hexadecimal text of a byte string. -/
def toHex (bs : Bytes) : String := String.ofList (bs.flatMap hexByte)

/-- The number that a hexadecimal digit stands for. -/
def digitValue? (c : Char) : Option Nat :=
  if c.isDigit then some (c.toNat - 48)
  else if 'a' ≤ c && c ≤ 'f' then some (c.toNat - 87)
  else if 'A' ≤ c && c ≤ 'F' then some (c.toNat - 55)
  else none

/-- The bytes that pairs of hexadecimal digits stand for. -/
def ofDigits? : List Char → Option Bytes
  | [] => some []
  | [_] => none
  | high :: low :: rest => do
      let byte := UInt8.ofNat ((← digitValue? high) * 16 + (← digitValue? low))
      return byte :: (← ofDigits? rest)

/-- The byte string that a hexadecimal text stands for. -/
def ofHex? (s : String) : Option Bytes := ofDigits? s.toList

/-- How one byte is written inside quotes.  A quote and a backslash get a backslash, four control
characters have a letter of their own, and every other byte outside the printable ASCII range is
written as a hexadecimal escape. -/
def escapeByte (b : UInt8) : List Char :=
  if b = 0x22 then ['\\', '"']
  else if b = 0x5c then ['\\', '\\']
  else if b = 0x0a then ['\\', 'n']
  else if b = 0x0d then ['\\', 'r']
  else if b = 0x09 then ['\\', 't']
  else if b = 0x00 then ['\\', '0']
  else if 0x20 ≤ b ∧ b < 0x7f then [Char.ofNat b.toNat]
  else '\\' :: 'x' :: hexByte b

/-- The quoted text of a byte string, introduced by the letter `b`. -/
def quoted (bs : Bytes) : String :=
  String.ofList ('b' :: '"' :: bs.flatMap escapeByte ++ ['"'])

end Bytes

end Multiversion
