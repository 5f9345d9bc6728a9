import Mathlib

/-!
# The bits of finite doubles

The exponent field of a double tells whether it is a number: the greatest exponent is kept for the
infinities and for what is no number at all.
-/

namespace ClauseTree.Decimal

open Float.Model Float.Model.UnpackedFloat

variable (b : BitVec Format.binary64.numBits)

theorem toNat_unpackExponent : (unpackExponent b).toNat = b.toNat / 2 ^ 52 % 2 ^ 11 := by
  simp [unpackExponent, Nat.shiftRight_eq_div_pow]

/-- Only the words with the greatest exponent are no numbers. -/
theorem isFinite_unpack_iff :
    (UnpackedFloat.unpack Format.binary64 b).isFinite = true ↔ unpackExponent b ≠ -1#_ := by
  rw [UnpackedFloat.unpack]
  by_cases h : unpackExponent b = -1#_
  · rw [if_pos h]
    split
    · exact iff_of_false Bool.false_ne_true (not_not_intro h)
    · exact iff_of_false Bool.false_ne_true (not_not_intro h)
  · rw [if_neg h]
    split
    · split
      · exact iff_of_true rfl h
      · exact iff_of_true rfl h
    · exact iff_of_true rfl h

theorem exponent_of_isFinite {x : Float} (hx : x.isFinite = true) :
    x.toBits.toNat / 2 ^ 52 % 2 ^ 11 ≠ 2047 := by
  have hne := (isFinite_unpack_iff x.toBits.toBitVec).1 hx
  intro h
  exact hne (BitVec.eq_of_toNat_eq ((toNat_unpackExponent _).trans h))

/-- Packing what a finite word holds gives a finite word. -/
theorem isFinite_unpack_pack (h : b.toNat / 2 ^ 52 % 2 ^ 11 ≠ 2047) :
    (UnpackedFloat.unpack Format.binary64 (UnpackedFloat.pack Format.binary64
      (UnpackedFloat.unpack Format.binary64 b))).isFinite = true := by
  have hexponent : unpackExponent b ≠ -1#_ := by
    intro hones
    exact h ((toNat_unpackExponent b).symm.trans (congrArg BitVec.toNat hones))
  have hnan : isNaNBits b ≠ true := fun hnan => hexponent (of_decide_eq_true hnan).1
  rw [pack_unpack, if_neg hnan, isFinite_unpack_iff]
  exact hexponent

theorem isFinite_ofBits {n : UInt64} (h : n.toNat / 2 ^ 52 % 2 ^ 11 ≠ 2047) :
    (Float.ofBits n).isFinite = true :=
  isFinite_unpack_pack n.toBitVec h

end ClauseTree.Decimal
