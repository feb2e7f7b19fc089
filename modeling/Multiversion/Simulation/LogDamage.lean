import Multiversion.Storage.Device

/-!
# Damaged logs

Changes to the bytes of a log between two openings, made in a fixed order: replace all, cut the end
off, spoil one byte, add bytes at the end.
-/

namespace Multiversion

/-- Changes to the bytes of a log. -/
structure LogDamage where
  replacement : Option Bytes := none
  cut : Nat := 0
  flipped : Option Nat := none
  tail : Bytes := []
  deriving DecidableEq, Repr

namespace LogDamage

/-- Flips all bits of a byte, if it exists. -/
def flipAt (index : Nat) (bs : Bytes) : Bytes := bs.modify index fun b => b ^^^ 0xFF

/-- The bytes of a log after the changes. -/
def applyTo (d : LogDamage) (bs : Bytes) : Bytes :=
  let bs := d.replacement.getD bs
  let bs := bs.take (bs.length - d.cut)
  let bs := d.flipped.elim bs fun index => flipAt index bs
  bs ++ d.tail

/-- A device with the bytes of another after the changes. -/
def reopen (d : LogDamage) (device : Device) (faults : Faults) : Device :=
  { Device.ofBytes (d.applyTo device.bytes) with faults }

end LogDamage

end Multiversion
