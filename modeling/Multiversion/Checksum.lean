import Multiversion.Bytes

/-!
# CRC-32

Log frames end with the CRC-32 of everything before them (reflected polynomial `0xEDB88320`, register
preset to ones, result complemented).  The checksum is computed a byte at a time through a table of
256 entries (`crc32`); `crc32Bitwise` is the same code stated bit by bit.
-/

namespace Multiversion
namespace Checksum

/-- The reflected generator polynomial. -/
def polynomial : UInt32 := 0xEDB88320

/-- One step of the shift register: shift right, and subtract the polynomial if a one fell out. -/
def bitStep (crc : UInt32) : UInt32 :=
  if crc &&& 1 = 1 then (crc >>> 1) ^^^ polynomial else crc >>> 1

/-- `n` steps of the shift register. -/
def bitSteps : (n : Nat) → UInt32 → UInt32
  | 0, crc => crc
  | n + 1, crc => bitSteps n (bitStep crc)

/-- The register contribution of every value of the low byte. -/
def table : Array UInt32 :=
  Array.ofFn fun i : Fin 256 => bitSteps 8 (UInt32.ofNat i.val)

theorem size_table : table.size = 256 := by
  simp [table]

/-- Feeds one byte to the register: the low byte of the register, mixed with the byte, selects the
table entry that its eight bits contribute. -/
def feedByte (crc : UInt32) (b : UInt8) : UInt32 :=
  let low := crc.toUInt8 ^^^ b
  have inTable : low.toNat < table.size := by
    rw [size_table]
    exact low.toNat_lt
  (crc >>> 8) ^^^ table[low.toNat]

/-- The CRC-32 of a byte string, a byte at a time. -/
def crc32 (bs : Bytes) : UInt32 :=
  ~~~(bs.foldl feedByte 0xFFFFFFFF)

/-- Feeds the bits of one byte to the register, least significant first. -/
def feedBits (crc : UInt32) (b : UInt8) : UInt32 :=
  bitSteps 8 (crc ^^^ b.toUInt32)

/-- The CRC-32 of a byte string by polynomial division, a bit at a time. -/
def crc32Bitwise (bs : Bytes) : UInt32 :=
  ~~~(bs.foldl feedBits 0xFFFFFFFF)

end Checksum
end Multiversion
