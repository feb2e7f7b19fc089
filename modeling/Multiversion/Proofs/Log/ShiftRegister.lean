import Multiversion.Checksum

/-!
# The shift register of the checksum

The checksum is computed a byte at a time through a table.  Underneath lies a shift register that is fed
single bits, each byte's least significant bit first.  The register is linear, so what it holds is the sum of
what its low byte contributes, which the table lists, and of the other three bytes, which only move down.

* `Checksum.bitSteps_xor` — the register is linear;
* `Checksum.feedByte_eq` — the table holds what eight steps contribute;
* `Checksum.feedBit`, `Checksum.bits` — a register that is fed single bits, and the bits of a byte string in
  the order in which they go in;
* `Checksum.bitSteps_xor_eq_foldl` — bits that are added to the register all at once are fed one by one.

Main statement: `Checksum.crc32_eq_foldl_feedBit`.
-/

namespace Multiversion
namespace Checksum

/-- The step by the number that the register holds. -/
theorem bitStep_eq (crc : UInt32) :
    bitStep crc = if crc.toNat % 2 = 1 then (crc >>> 1) ^^^ polynomial else crc >>> 1 := by
  have hlow : crc &&& 1 = 1 ↔ crc.toNat % 2 = 1 := by
    rw [← UInt32.toNat_inj, UInt32.toNat_and]
    simp [Nat.and_one_is_mod]
  rw [bitStep]
  simp only [hlow]

theorem toNat_shiftRight_one (word : UInt32) : (word >>> 1).toNat = word.toNat / 2 := by
  simp [UInt32.toNat_shiftRight, Nat.shiftRight_eq_div_pow]

theorem toNat_shiftRight_eight (b : UInt8) : b.toNat >>> 8 = 0 := by
  have hb := b.toNat_lt
  rw [Nat.shiftRight_eq_div_pow]
  omega

/-! ## Linearity -/

theorem bitStep_xor (a b : UInt32) : bitStep (a ^^^ b) = bitStep a ^^^ bitStep b := by
  have hlow : (a ^^^ b).toNat % 2 = 1 ↔ ¬ (a.toNat % 2 = 1 ↔ b.toNat % 2 = 1) := by
    rw [UInt32.toNat_xor, Nat.xor_mod_two_eq_one]
  have hcancel : ∀ x y p : UInt32, x ^^^ p ^^^ (y ^^^ p) = x ^^^ y := by
    intro x y p
    rw [UInt32.xor_comm y p, ← UInt32.xor_assoc, UInt32.xor_assoc x p p, UInt32.xor_self,
      UInt32.xor_zero]
  simp only [bitStep_eq, hlow, UInt32.shiftRight_xor]
  by_cases ha : a.toNat % 2 = 1 <;> by_cases hb : b.toNat % 2 = 1
  · simp [ha, hb, hcancel]
  · simp [ha, hb, UInt32.xor_assoc, UInt32.xor_comm polynomial]
  · simp [ha, hb, UInt32.xor_assoc]
  · simp [ha, hb]

theorem bitSteps_xor (n : Nat) (a b : UInt32) :
    bitSteps n (a ^^^ b) = bitSteps n a ^^^ bitSteps n b := by
  induction n generalizing a b with
  | zero => rfl
  | succ n ih => rw [bitSteps, bitStep_xor, ih, bitSteps, bitSteps]

/-! ## A byte at a time -/

/-- A register whose low bits are clear only shifts. -/
theorem toNat_bitSteps {n m : Nat} {crc : UInt32} (h : crc.toNat = m <<< n) :
    (bitSteps n crc).toNat = m := by
  induction n generalizing crc with
  | zero => exact h
  | succ n ih =>
      rw [Nat.shiftLeft_succ] at h
      have heven : ¬ crc.toNat % 2 = 1 := by omega
      have hstep : (bitStep crc).toNat = m <<< n := by
        rw [bitStep_eq, if_neg heven, toNat_shiftRight_one]
        omega
      exact ih hstep

/-- The low byte of the register, and the rest of it. -/
theorem low_xor_high (crc : UInt32) : crc.toUInt8.toUInt32 ^^^ ((crc >>> 8) <<< 8) = crc := by
  apply UInt32.toBitVec_inj.mp
  simp only [UInt32.toBitVec_xor, UInt32.toBitVec_shiftLeft, UInt32.toBitVec_shiftRight,
    UInt8.toBitVec_toUInt32, UInt32.toBitVec_toUInt8]
  ext i hi
  by_cases hlow : i < 8
  · simp [hlow, BitVec.getLsbD_eq_getElem, hi]
  · have hindex : 8 + (i - 8) = i := by omega
    simp [hlow, hindex, BitVec.getLsbD_eq_getElem, hi]

/-- **A byte at a time** through the table is the same as a bit at a time. -/
theorem feedByte_eq (crc : UInt32) (b : UInt8) : feedByte crc b = feedBits crc b := by
  generalize hx : crc ^^^ b.toUInt32 = x
  have hlow : crc.toUInt8 ^^^ b = x.toUInt8 := by
    rw [← hx]
    simp
  have hhigh : crc >>> 8 = x >>> 8 := by
    have hbyte : b.toUInt32 >>> 8 = 0 := by
      rw [← UInt32.toNat_inj, UInt32.toNat_shiftRight, UInt8.toNat_toUInt32]
      exact toNat_shiftRight_eight b
    rw [← hx, UInt32.shiftRight_xor, hbyte, UInt32.xor_zero]
  have htable : ∀ (l : UInt8) (h : l.toNat < table.size), table[l.toNat] = bitSteps 8 l.toUInt32 := by
    intro l h
    simp [table]
  have hshift : bitSteps 8 ((x >>> 8) <<< 8) = x >>> 8 := by
    have hclear : ((x >>> 8) <<< 8).toNat = (x >>> 8).toNat <<< 8 := by
      have hx := x.toNat_lt
      simp [Nat.shiftRight_eq_div_pow, Nat.shiftLeft_eq]
      omega
    rw [← UInt32.toNat_inj, toNat_bitSteps hclear]
  rw [feedBits, hx, ← low_xor_high x, bitSteps_xor, hshift, feedByte, hhigh]
  simp only [hlow]
  rw [htable, UInt32.xor_comm]

theorem crc32_eq_crc32Bitwise (bs : Bytes) : crc32 bs = crc32Bitwise bs := by
  have hfeed : feedByte = feedBits := by
    funext crc b
    exact feedByte_eq crc b
  rw [crc32, crc32Bitwise, hfeed]

/-! ## A bit at a time -/

/-- One bit goes in: it is added to the bit that falls out, and the polynomial is subtracted if the sum is
one. -/
def feedBit (crc : UInt32) (bit : Bool) : UInt32 :=
  if (crc.toNat.testBit 0 ^^ bit) = true then (crc >>> 1) ^^^ polynomial else crc >>> 1

/-- The `n` low bits of a number, least significant first. -/
def lowBits (n k : Nat) : List Bool :=
  (List.range n).map k.testBit

/-- The bits of a byte string, each byte's least significant bit first. -/
def bits (bs : Bytes) : List Bool :=
  bs.flatMap fun b => lowBits 8 b.toNat

theorem lowBits_succ (n k : Nat) : lowBits (n + 1) k = k.testBit 0 :: lowBits n (k / 2) := by
  rw [lowBits, List.range_succ_eq_map, List.map_cons, List.map_map, lowBits]
  congr 2
  funext i
  exact Nat.testBit_succ k i

@[simp] theorem length_lowBits (n k : Nat) : (lowBits n k).length = n := by
  simp [lowBits]

@[simp] theorem length_bits (bs : Bytes) : (bits bs).length = 8 * bs.length := by
  simp [bits, List.map_const', Nat.mul_comm]

theorem bitStep_xor_eq_feedBit (crc word : UInt32) :
    bitStep (crc ^^^ word) = feedBit crc (word.toNat.testBit 0) ^^^ (word >>> 1) := by
  have hlow : (crc ^^^ word).toNat % 2 = 1 ↔
      (crc.toNat.testBit 0 ^^ word.toNat.testBit 0) = true := by
    rw [UInt32.toNat_xor, ← Nat.testBit_xor, Nat.testBit_zero]
    simp
  rw [bitStep_eq, feedBit, UInt32.shiftRight_xor]
  simp only [hlow]
  split
  · rw [UInt32.xor_assoc, UInt32.xor_assoc, UInt32.xor_comm polynomial]
  · rfl

/-- A word that is added to the register reaches its low end bit by bit: it might as well be fed there. -/
theorem bitSteps_xor_eq_foldl {n : Nat} {word : UInt32} (h : word.toNat >>> n = 0) (crc : UInt32) :
    bitSteps n (crc ^^^ word) = (lowBits n word.toNat).foldl feedBit crc := by
  -- what is left of the word after a step is the word shifted, with one bit less
  induction n generalizing word crc with
  | zero =>
      have hzero : word = 0 := UInt32.toNat_inj.1 h
      rw [hzero, UInt32.xor_zero]
      rfl
  | succ n ih =>
      have hrest : (word >>> 1).toNat >>> n = 0 := by
        rw [toNat_shiftRight_one, ← Nat.shiftRight_succ_inside, h]
      rw [bitSteps, bitStep_xor_eq_feedBit, ih hrest, toNat_shiftRight_one, lowBits_succ,
        List.foldl_cons]

theorem feedBits_eq_foldl (crc : UInt32) (b : UInt8) :
    feedBits crc b = (lowBits 8 b.toNat).foldl feedBit crc := by
  have hbyte : b.toUInt32.toNat >>> 8 = 0 := by
    rw [UInt8.toNat_toUInt32, toNat_shiftRight_eight]
  rw [feedBits, bitSteps_xor_eq_foldl hbyte, UInt8.toNat_toUInt32]

theorem crc32Bitwise_eq_foldl_feedBit (bs : Bytes) :
    crc32Bitwise bs = ~~~((bits bs).foldl feedBit 0xFFFFFFFF) := by
  have hfeed : feedBits = fun crc b => (lowBits 8 b.toNat).foldl feedBit crc := by
    funext crc b
    exact feedBits_eq_foldl crc b
  rw [crc32Bitwise, bits, List.foldl_flatMap, hfeed]

/-- **The checksum is what a register that is fed single bits ends up with**: preset to ones, fed each byte's
bits from the least significant on, and complemented. -/
theorem crc32_eq_foldl_feedBit (bs : Bytes) :
    crc32 bs = ~~~((bits bs).foldl feedBit 0xFFFFFFFF) :=
  (crc32_eq_crc32Bitwise bs).trans (crc32Bitwise_eq_foldl_feedBit bs)

end Checksum
end Multiversion
