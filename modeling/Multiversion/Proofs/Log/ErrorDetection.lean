import Multiversion.Proofs.Log.ShiftRegister

/-!
# Error detection

No step of the checksum's shift register loses anything: two registers that differ still differ after any
number of bytes.  Two byte strings of one length that differ in one byte therefore never have the same
checksum.

* `Checksum.bitSteps_inj` — the steps of the register can be undone;
* `Checksum.feedByte_inj_left`, `Checksum.feedByte_inj_right` — neither the register nor the byte is lost.

Main statement: `Checksum.crc32_set_ne`.
-/

namespace Multiversion
namespace Checksum

/-- Only the empty register steps to the empty register: the polynomial has its top bit set. -/
theorem eq_zero_of_bitStep {crc : UInt32} (h : bitStep crc = 0) : crc = 0 := by
  have hlt := crc.toNat_lt
  have hshift := toNat_shiftRight_one crc
  rw [bitStep_eq] at h
  split at h
  · rw [UInt32.xor_eq_zero_iff] at h
    rw [h] at hshift
    have htop : polynomial.toNat = 3988292384 := rfl
    omega
  · rw [h] at hshift
    have hzero : (0 : UInt32).toNat = 0 := rfl
    rw [← UInt32.toNat_inj]
    omega

theorem eq_zero_of_bitSteps {n : Nat} {crc : UInt32} (h : bitSteps n crc = 0) : crc = 0 := by
  induction n generalizing crc with
  | zero => exact h
  | succ n ih => exact eq_zero_of_bitStep (ih h)

/-- **The shift register forgets nothing.** -/
theorem bitSteps_inj {n : Nat} {a b : UInt32} : bitSteps n a = bitSteps n b ↔ a = b := by
  refine ⟨fun h => ?_, fun h => by rw [h]⟩
  have hzero : bitSteps n (a ^^^ b) = 0 := by
    rw [bitSteps_xor, h, UInt32.xor_self]
  exact UInt32.xor_eq_zero_iff.1 (eq_zero_of_bitSteps hzero)

/-- A byte that goes in never makes two registers the same. -/
theorem feedByte_inj_left {a a' : UInt32} {b : UInt8} : feedByte a b = feedByte a' b ↔ a = a' := by
  rw [feedByte_eq, feedByte_eq, feedBits, feedBits, bitSteps_inj, UInt32.xor_left_inj]

/-- Different bytes leave different registers. -/
theorem feedByte_inj_right {a : UInt32} {b b' : UInt8} : feedByte a b = feedByte a b' ↔ b = b' := by
  rw [feedByte_eq, feedByte_eq, feedBits, feedBits, bitSteps_inj, UInt32.xor_right_inj,
    UInt8.toUInt32_inj]

theorem foldl_feedByte_inj {a a' : UInt32} (bs : Bytes) :
    bs.foldl feedByte a = bs.foldl feedByte a' ↔ a = a' := by
  induction bs generalizing a a' with
  | nil => rfl
  | cons b rest ih => rw [List.foldl_cons, List.foldl_cons, ih, feedByte_inj_left]

theorem crc32_append_cons_ne (before after : Bytes) {b b' : UInt8} (h : b ≠ b') :
    crc32 (before ++ b :: after) ≠ crc32 (before ++ b' :: after) := by
  rw [crc32, crc32, Ne, UInt32.not_inj, List.foldl_append, List.foldl_append, List.foldl_cons,
    List.foldl_cons, foldl_feedByte_inj, feedByte_inj_right]
  exact h

/-- **A byte that is replaced changes the checksum.** -/
theorem crc32_set_ne {bs : Bytes} {p : Nat} {b : UInt8} (hp : p < bs.length) (hb : b ≠ bs[p]) :
    crc32 (bs.set p b) ≠ crc32 bs := by
  have hne := crc32_append_cons_ne (bs.take p) (bs.drop (p + 1)) hb
  rw [List.getElem_cons_drop, List.take_append_drop] at hne
  rwa [List.set_eq_take_append_cons_drop, if_pos hp]

end Checksum
end Multiversion
