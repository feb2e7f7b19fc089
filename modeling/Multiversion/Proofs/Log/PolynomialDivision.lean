import Mathlib.Algebra.Field.ZMod
import Mathlib.Algebra.Polynomial.Div
import Mathlib.Algebra.Polynomial.OfFn
import Mathlib.Tactic.Ring
import Multiversion.Proofs.Log.ShiftRegister

/-!
# The checksum as a remainder

Bits are numbers modulo two, and a register, a message and the generator are polynomials over them.  The shift
register divides: with every bit that goes in it holds what is left of the message so far after multiples of
the generator have been taken away.  The reflected order of the register is an order of coefficients only: its
lowest bit belongs to the highest power.

* `Checksum.toPoly`, `Checksum.messagePoly` — the polynomials of a register and of a message;
* `Checksum.generator` — the generator of CRC-32, of which the reflected constant lists what lies below the
  leading power (`Checksum.generator_eq`);
* `Checksum.toPoly_feedBit` — one step of the division, and `Checksum.toPoly_foldl_feedBit`, a whole message;
* `Checksum.modByMonic_generator` — the register ends with the remainder.

Main statement: `Checksum.crc32_eq_remainder`.
-/

namespace Multiversion
namespace Checksum

open Polynomial

/-- A bit as a number modulo two. -/
def ofBit (bit : Bool) : ZMod 2 :=
  if bit then 1 else 0

@[simp] theorem ofBit_false : ofBit false = 0 := rfl

@[simp] theorem ofBit_true : ofBit true = 1 := rfl

theorem ofBit_xor (a b : Bool) : ofBit (a ^^ b) = ofBit a + ofBit b := by
  cases a <;> cases b <;> rfl

/-! ## Registers -/

/-- The polynomial of a register: its lowest bit is the coefficient of the highest power. -/
noncomputable def toPoly (crc : UInt32) : (ZMod 2)[X] :=
  Polynomial.ofFn 32 fun i => ofBit (crc.toNat.testBit (31 - i))

theorem coeff_toPoly (crc : UInt32) (n : Nat) :
    (toPoly crc).coeff n = if n < 32 then ofBit (crc.toNat.testBit (31 - n)) else 0 := by
  rw [toPoly]
  split
  case isTrue h => rw [Polynomial.ofFn_coeff_eq_val_of_lt _ h]
  case isFalse h => exact Polynomial.ofFn_coeff_eq_zero_of_ge _ (Nat.le_of_not_lt h)

theorem degree_toPoly_lt (crc : UInt32) : (toPoly crc).degree < (32 : Nat) :=
  Polynomial.ofFn_degree_lt _

/-- A register stands for the sum of the powers whose bits are set in it. -/
theorem toPoly_eq_sum (crc : UInt32) :
    toPoly crc = ∑ i ∈ Finset.range 32 with crc.toNat.testBit (31 - i), X ^ i := by
  have hterm : ∀ i, monomial i (ofBit (crc.toNat.testBit (31 - i))) =
      if crc.toNat.testBit (31 - i) then (X : (ZMod 2)[X]) ^ i else 0 := by
    intro i
    split
    case isTrue h => rw [h, ofBit_true, monomial_one_right_eq_X_pow]
    case isFalse h => rw [Bool.eq_false_iff.2 h, ofBit_false, monomial_zero_right]
  rw [toPoly, Polynomial.ofFn_eq_sum_monomial, Finset.sum_filter, Finset.sum_range]
  exact Finset.sum_congr rfl fun i _ => hterm i

theorem toPoly_xor (a b : UInt32) : toPoly (a ^^^ b) = toPoly a + toPoly b := by
  ext n
  rw [coeff_add, coeff_toPoly, coeff_toPoly, coeff_toPoly, UInt32.toNat_xor, Nat.testBit_xor, ofBit_xor]
  split
  · rfl
  · rw [add_zero]

/-- A shift multiplies by the variable, and the bit that falls out was the leading coefficient. -/
theorem X_mul_toPoly (crc : UInt32) :
    X * toPoly crc = toPoly (crc >>> 1) + C (ofBit (crc.toNat.testBit 0)) * X ^ 32 := by
  have hshift : ∀ i, (crc >>> 1).toNat.testBit i = crc.toNat.testBit (i + 1) := by
    intro i
    rw [toNat_shiftRight_one, Nat.testBit_succ]
  ext n
  rw [coeff_add, coeff_toPoly, coeff_C_mul, coeff_X_pow, hshift]
  cases n with
  | zero =>
      have htop : crc.toNat.testBit 32 = false := Nat.testBit_lt_two_pow crc.toNat_lt
      simp [htop]
  | succ k =>
      rw [coeff_X_mul, coeff_toPoly]
      rcases Nat.lt_trichotomy k 31 with hk | hk | hk
      · have hindex : 31 - (k + 1) + 1 = 31 - k := by omega
        rw [hindex, if_pos (by omega), if_pos (by omega), if_neg (by omega), mul_zero, add_zero]
      · subst hk
        simp
      · rw [if_neg (by omega), if_neg (by omega), if_neg (by omega), mul_zero, add_zero]

/-! ## The generator -/

/-- The powers of the generator of CRC-32. -/
def exponents : Finset Nat := {32, 26, 23, 22, 16, 12, 11, 10, 8, 7, 5, 4, 2, 1, 0}

/-- The generator of CRC-32. -/
noncomputable def generator : (ZMod 2)[X] :=
  ∑ e ∈ exponents, X ^ e

theorem exponents_eq :
    exponents = insert 32 ((Finset.range 32).filter fun i => polynomial.toNat.testBit (31 - i)) := by
  decide

/-- The reflected constant lists the coefficients of the generator below its leading power. -/
theorem generator_eq : generator = X ^ 32 + toPoly polynomial := by
  rw [generator, exponents_eq, Finset.sum_insert (by simp), toPoly_eq_sum]

theorem monic_generator : generator.Monic := by
  rw [generator_eq]
  exact monic_X_pow_add (degree_toPoly_lt _)

theorem degree_generator : generator.degree = (32 : Nat) := by
  rw [generator_eq, degree_add_eq_left_of_degree_lt]
  · exact degree_X_pow 32
  · rw [degree_X_pow]
    exact degree_toPoly_lt _

/-! ## Division -/

/-- **One step of the division**: the register moved up one place, with the bit that goes in beside its leading
coefficient, is the next register and the generator as often as their sum says. -/
theorem toPoly_feedBit (crc : UInt32) (bit : Bool) :
    X * toPoly crc + C (ofBit bit) * X ^ 32 =
      toPoly (feedBit crc bit) + generator * C (ofBit (crc.toNat.testBit 0 ^^ bit)) := by
  have hshift : X * toPoly crc + C (ofBit bit) * X ^ 32 =
      toPoly (crc >>> 1) + C (ofBit (crc.toNat.testBit 0 ^^ bit)) * X ^ 32 := by
    rw [X_mul_toPoly, ofBit_xor, C_add]
    ring
  rw [hshift, feedBit]
  split
  case isTrue h =>
    rw [h, ofBit_true, C_1, one_mul, mul_one]
    calc toPoly (crc >>> 1) + X ^ 32
        = toPoly ((crc >>> 1) ^^^ polynomial ^^^ polynomial) + X ^ 32 := by
          rw [UInt32.xor_assoc, UInt32.xor_self, UInt32.xor_zero]
      _ = toPoly ((crc >>> 1) ^^^ polynomial) + generator := by
          rw [toPoly_xor, generator_eq]
          ring
  case isFalse h =>
    rw [Bool.eq_false_iff.2 h, ofBit_false, C_0, zero_mul, mul_zero]

/-- The polynomial of a message: its first bit is the coefficient of the highest power. -/
noncomputable def messagePoly : List Bool → (ZMod 2)[X]
  | [] => 0
  | bit :: rest => C (ofBit bit) * X ^ rest.length + messagePoly rest

theorem toPoly_foldl_feedBit (message : List Bool) (crc : UInt32) :
    ∃ quotient, X ^ message.length * toPoly crc + messagePoly message * X ^ 32 =
      toPoly (message.foldl feedBit crc) + generator * quotient := by
  induction message generalizing crc with
  | nil => exact ⟨0, by simp [messagePoly]⟩
  | cons bit rest ih =>
      -- what the first bit takes away stands above the quotient of the rest
      obtain ⟨quotient, hrest⟩ := ih (feedBit crc bit)
      refine ⟨quotient + C (ofBit (crc.toNat.testBit 0 ^^ bit)) * X ^ rest.length, ?_⟩
      rw [List.length_cons, List.foldl_cons, messagePoly]
      calc X ^ (rest.length + 1) * toPoly crc +
            (C (ofBit bit) * X ^ rest.length + messagePoly rest) * X ^ 32
          = X ^ rest.length * (X * toPoly crc + C (ofBit bit) * X ^ 32) + messagePoly rest * X ^ 32 := by
            ring
        _ = X ^ rest.length * toPoly (feedBit crc bit) + messagePoly rest * X ^ 32 +
              generator * (C (ofBit (crc.toNat.testBit 0 ^^ bit)) * X ^ rest.length) := by
            rw [toPoly_feedBit]
            ring
        _ = toPoly (rest.foldl feedBit (feedBit crc bit)) +
              generator * (quotient + C (ofBit (crc.toNat.testBit 0 ^^ bit)) * X ^ rest.length) := by
            rw [hrest]
            ring

/-- The register ends with the remainder of what it held and of what was fed to it. -/
theorem modByMonic_generator (message : List Bool) (crc : UInt32) :
    (X ^ message.length * toPoly crc + messagePoly message * X ^ 32) %ₘ generator =
      toPoly (message.foldl feedBit crc) := by
  obtain ⟨quotient, h⟩ := toPoly_foldl_feedBit message crc
  have hdegree : (toPoly (message.foldl feedBit crc)).degree < generator.degree := by
    rw [degree_generator]
    exact degree_toPoly_lt _
  exact (div_modByMonic_unique quotient _ monic_generator ⟨h.symm, hdegree⟩).2

/-- **The checksum is CRC-32.**  The table gives what a register ends up with that is preset to ones, fed each
byte's bits from the least significant on, and complemented; and what the register holds before it is
complemented is the remainder that the generator leaves of the message with 32 zeros behind it and the preset
ones added to its first 32 places. -/
theorem crc32_eq_remainder (bs : Bytes) :
    crc32 bs = ~~~((bits bs).foldl feedBit 0xFFFFFFFF) ∧
      toPoly (~~~(crc32 bs)) =
        (X ^ (8 * bs.length) * toPoly 0xFFFFFFFF + messagePoly (bits bs) * X ^ 32) %ₘ generator := by
  have hfold := crc32_eq_foldl_feedBit bs
  refine ⟨hfold, ?_⟩
  rw [hfold, UInt32.not_not, ← length_bits, modByMonic_generator]

/-- The checksum of the nine digits. -/
example : crc32 [0x31, 0x32, 0x33, 0x34, 0x35, 0x36, 0x37, 0x38, 0x39] = 0xCBF43926 := by decide +kernel

end Checksum
end Multiversion
