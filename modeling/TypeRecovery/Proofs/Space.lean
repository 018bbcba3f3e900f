import Mathlib.Algebra.Group.Nat.Defs
import TypeRecovery.Space

/-!
# Offsets of address spaces

The offsets of a space are the words below a power of two, and wrapping an offset is reduction
modulo that power. A byte offset becomes an offset of units by division. A negative byte offset is
divided as the word that stands for it, and that is the quotient of the number itself only where
the space is small enough not to show the difference.
-/

namespace TypeRecovery

/-- A word has at most 64 bits. -/
theorem wordBits_le (size : Nat) : wordBits size ≤ 64 := by
  rw [wordBits]
  omega

/-- A byte mask has all bits of its size. -/
theorem toNat_byteMask (size : Nat) : (byteMask size).toNat = 2 ^ wordBits size - 1 := by
  have hpow : 2 ^ wordBits size ≤ 2 ^ 64 := Nat.pow_le_pow_right (by decide) (wordBits_le size)
  have hpos := Nat.two_pow_pos (wordBits size)
  rw [byteMask, UInt64.toNat_ofNat', Nat.pow_eq]
  exact Nat.mod_eq_of_lt (by omega)

/-- Numbers are read with a sign in 64 bits at most. -/
theorem signExtend_bounds (value size : Nat) :
    -(UInt64.size : Int) ≤ 2 * signExtend value size ∧
      2 * signExtend value size < UInt64.size := by
  have hpow : Nat.pow 2 (wordBits (if size = 0 then 8 else size)) ≤ UInt64.size :=
    Nat.pow_le_pow_right (by decide) (wordBits_le _)
  have hpos : 0 < Nat.pow 2 (wordBits (if size = 0 then 8 else size)) := Nat.two_pow_pos _
  rw [signExtend]
  generalize Nat.pow 2 (wordBits (if size = 0 then 8 else size)) = m at hpos hpow ⊢
  have hlow := Int.le_bmod (x := (value : Int)) hpos
  have hhigh := Int.bmod_lt (x := (value : Int)) hpos
  have heven : UInt64.size % 2 = 0 := by decide
  omega

/-- A number and the word that it leaves are read alike. -/
theorem signExtend_mod (value size : Nat) :
    signExtend (value % UInt64.size) size = signExtend value size := by
  have hdvd : Nat.pow 2 (wordBits (if size = 0 then 8 else size)) ∣ UInt64.size :=
    Nat.pow_dvd_pow 2 (wordBits_le _)
  rw [signExtend, signExtend]
  generalize Nat.pow 2 (wordBits (if size = 0 then 8 else size)) = m at hdvd ⊢
  rw [← Int.emod_bmod (x := ((value % UInt64.size : Nat) : Int)),
    ← Int.emod_bmod (x := (value : Int)), ← Int.natCast_emod, ← Int.natCast_emod,
    Nat.mod_mod_of_dvd _ hdvd]

/-- A word holds a number up to multiples of its range. -/
theorem toNat_wordOfInt (value : Int) : ((wordOfInt value).toNat : Int) = value % UInt64.size := by
  have hnonneg : 0 ≤ value % UInt64.size := Int.emod_nonneg value (by decide)
  have hlt : value % UInt64.size < UInt64.size := Int.emod_lt_of_pos value (by decide)
  rw [wordOfInt, UInt64.toNat_ofNat', Nat.mod_eq_of_lt, Int.toNat_of_nonneg hnonneg]
  exact (Int.toNat_lt hnonneg).mpr hlt

namespace Space

variable {s : Space}

/-- The number of offsets of a space. -/
def extent (s : Space) : Nat := 2 ^ wordBits s.addressSize

/-- The extent of a space divides the range of a word. -/
theorem extent_dvd (s : Space) : s.extent ∣ UInt64.size := Nat.pow_dvd_pow 2 (wordBits_le _)

/-- Wrapping takes the remainder by the extent of the space. -/
theorem toNat_wrap (s : Space) (offset : UInt64) :
    (s.wrap offset).toNat = offset.toNat % s.extent := by
  rw [wrap, mask, UInt64.toNat_and, toNat_byteMask, Nat.and_two_pow_sub_one_eq_mod, extent]

/-- An offset of the space wraps to itself. -/
theorem wrap_of_lt {offset : UInt64} (h : offset.toNat < s.extent) : s.wrap offset = offset := by
  apply UInt64.toNat_inj.mp
  rw [toNat_wrap, Nat.mod_eq_of_lt h]

/-- A range that runs over the end of the space ends after the start of the space. -/
theorem toNat_wrap_add (s : Space) (start : UInt64) (size : Nat) :
    (s.wrap (start + UInt64.ofNat size)).toNat = (start.toNat + size) % s.extent := by
  have hdvd : s.extent ∣ 2 ^ 64 := s.extent_dvd
  rw [toNat_wrap, UInt64.toNat_add, UInt64.toNat_ofNat', Nat.mod_mod_of_dvd _ hdvd, Nat.add_mod,
    Nat.mod_mod_of_dvd _ hdvd, ← Nat.add_mod]

/-- The unit of a byte is the quotient by the word size. -/
theorem toNat_unitOfByte (hpos : 0 < s.wordSize) (hword : s.wordSize < UInt64.size)
    (offset : UInt64) : (s.unitOfByte offset).toNat = offset.toNat / s.wordSize := by
  rw [unitOfByte]
  split
  · have hone : s.wordSize = 1 := by omega
    rw [hone, Nat.div_one]
  · rw [UInt64.toNat_div, UInt64.toNat_ofNat', Nat.mod_eq_of_lt hword]

/-- A negative number of bytes becomes a number of units that is too large by the number of units
in all words. -/
theorem unitOfByte_wordOfInt (hpos : 0 < s.wordSize) (hword : s.wordSize < UInt64.size) {k : Int}
    (hk : -(UInt64.size : Int) ≤ k ∧ k < UInt64.size) (hdvd : (s.wordSize : Int) ∣ k) :
    ((s.unitOfByte (wordOfInt k)).toNat : Int) =
      k / s.wordSize + if 0 ≤ k then 0 else ((UInt64.size / s.wordSize : Nat) : Int) := by
  rw [toNat_unitOfByte hpos hword, Int.natCast_ediv, toNat_wordOfInt]
  split
  · rename_i hnonneg
    rw [Int.emod_eq_of_lt hnonneg hk.2, Int.add_zero]
  · rename_i hneg
    have hword : (k + UInt64.size) % (UInt64.size : Int) = k + UInt64.size :=
      Int.emod_eq_of_lt (by omega) (by omega)
    rw [← Int.add_emod_right, hword, Int.add_ediv_of_dvd_left hdvd, Int.natCast_ediv]

/-- A number of bytes that units divide becomes its quotient in the space exactly if it is not
negative, or the number of units in all words vanishes in the space. -/
theorem toNat_wrap_unitOfByte_iff (hpos : 0 < s.wordSize) (hword : s.wordSize < UInt64.size)
    {k : Int} (hk : -(UInt64.size : Int) ≤ k ∧ k < UInt64.size) (hdvd : (s.wordSize : Int) ∣ k) :
    ((s.wrap (s.unitOfByte (wordOfInt k))).toNat : Int) = k / s.wordSize % s.extent ↔
      0 ≤ k ∨ s.extent ∣ UInt64.size / s.wordSize := by
  rw [toNat_wrap, Int.natCast_emod, unitOfByte_wordOfInt hpos hword hk hdvd]
  split
  · rename_i hnonneg
    rw [Int.add_zero]
    exact ⟨fun _ => Or.inl hnonneg, fun _ => rfl⟩
  · rename_i hneg
    rw [Int.emod_eq_emod_iff_emod_sub_eq_zero, Int.add_comm, Int.add_sub_cancel,
      ← Int.dvd_iff_emod_eq_zero, Int.natCast_dvd_natCast]
    exact ⟨Or.inr, fun h => h.resolve_left hneg⟩

end Space

end TypeRecovery
