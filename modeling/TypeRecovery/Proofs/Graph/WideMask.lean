import Mathlib.Algebra.Group.Nat.Defs
import TypeRecovery.Proofs.Graph.LeastMask

/-!
# Masks of parts of wide values

A mask has a bit for each of the low 64 bits of a value and says nothing about the others. A
truncation or a shift to the right moves bits from above the word into it, and the mask of the
result, which is the shifted mask, has none of them.
-/

namespace TypeRecovery
namespace Graph

variable {g : Graph} {op : Op} {mask : VarnodeId → UInt64} {wide out bits i x : Nat}

/-- The op takes its first operand without a constant number of its low bits. -/
inductive DropsBits (g : Graph) (op : Op) : (bits : Nat) → Prop where
  /-- A truncation drops whole bytes. -/
  | truncation {c : Varnode} (hop : op.opcode = .subpiece) (hc : g.constant? op 1 = some c) :
      DropsBits g op (8 * c.address.offset.toNat)
  | shift {c : Varnode} (hop : op.opcode = .intRight) (hc : g.constant? op 1 = some c) :
      DropsBits g op c.address.offset.toNat

/-- The part of a value above its dropped bits, as far as masks go, cut to the size of the result.
-/
def keptBits (g : Graph) (bits x : Nat) (out : VarnodeId) : Nat :=
  (x >>> bits) % 2 ^ 64 % 2 ^ (8 * (g.varnode out).size)

/-- The bits that are kept are those above the dropped ones, as far as the result reaches. -/
theorem testBit_keptBits : (g.keptBits bits x out).testBit i = true ↔
    i < 8 * min (g.varnode out).size 8 ∧ x.testBit (bits + i) = true := by
  rw [keptBits, Nat.testBit_mod_two_pow, Nat.testBit_mod_two_pow, Nat.testBit_shiftRight,
    Bool.and_eq_true, Bool.and_eq_true, decide_eq_true_eq, decide_eq_true_eq, ← and_assoc]
  refine and_congr_left fun _ => ?_
  omega

/-- What is dropped is also dropped from the mask, unless nothing of the word is left. -/
theorem DropsBits.opMask_eq (h : g.DropsBits op bits) (mask : VarnodeId → UInt64) :
    g.opMask mask op = if bits < 64 then shiftRight (operandMask mask op 0) bits else allBits := by
  cases h with
  | @truncation c hop hc =>
    have hlimit : c.address.offset < 8 ↔ 8 * c.address.offset.toNat < 64 := by
      rw [UInt64.lt_iff_toNat_lt]
      change c.address.offset.toNat < 8 ↔ _
      omega
    simp only [opMask, hop, hc, Opcode.isBoolean, Bool.false_eq_true, if_false, hlimit]
  | @shift c hop hc =>
    have hlimit : c.address.offset < 64 ↔ c.address.offset.toNat < 64 := UInt64.lt_iff_toNat_lt
    simp only [opMask, hop, hc, Opcode.isBoolean, Bool.false_eq_true, if_false, hlimit]

/-- The mask of an op that drops bits is the shifted mask of its wide operand. -/
theorem DropsBits.testBit_opMask (h : g.DropsBits op bits) (hwide : op.input? 0 = some wide)
    (hi : i < 64) : (g.opMask mask op).toNat.testBit i = true ↔
      64 ≤ bits ∨ (mask wide).toNat.testBit (bits + i) = true := by
  rw [h.opMask_eq]
  split
  · rename_i hlt
    rw [testBit_shiftRight, operandMask, hwide]
    exact ⟨Or.inr, fun hbit => hbit.resolve_left (Nat.not_le_of_lt hlt)⟩
  · rename_i hge
    exact iff_of_true (testBit_allBits hi) (Or.inl (Nat.le_of_not_lt hge))

/-- The bits of a result that its mask does not have are those that come from above the word. -/
theorem DropsBits.testBit_resultMask (h : g.DropsBits op bits) (hwide : op.input? 0 = some wide)
    (hx : Within (x % 2 ^ 64) (mask wide)) (hi : (g.keptBits bits x out).testBit i = true) :
    (g.resultMask mask op out).toNat.testBit i = false ↔ bits < 64 ∧ 64 ≤ bits + i := by
  obtain ⟨hsize, hbit⟩ := testBit_keptBits.mp hi
  have hword : i < 64 := by omega
  rw [← Bool.not_eq_true, resultMask, UInt64.toNat_and, Nat.testBit_and, testBit_byteMask,
    decide_eq_true hsize, Bool.and_true, h.testBit_opMask hwide hword, not_or, Nat.not_le]
  refine and_congr_right fun _ => ⟨fun hmissing => ?_, fun hge hmask => ?_⟩
  · apply Nat.le_of_not_lt
    intro hlow
    apply hmissing
    apply hx
    rw [Nat.testBit_mod_two_pow, hbit, Bool.and_true]
    exact decide_eq_true hlow
  · exact absurd (lt_of_testBit hmask) (Nat.not_lt_of_le hge)

/-- The masks of parts of a wide value hold for all of its values exactly if the parts are above the
word or lie in it as a whole. The bits that a mask misses otherwise are those from above the
word. -/
theorem DropsBits.sound_iff (h : g.DropsBits op bits) (hwide : op.input? 0 = some wide)
    (hsize : 8 < (g.varnode wide).size) (mask : VarnodeId → UInt64) (out : Nat) :
    ((∀ x < 2 ^ (8 * (g.varnode wide).size), Within (x % 2 ^ 64) (mask wide) →
        Within (g.keptBits bits x out) (g.resultMask mask op out)) ↔
      64 ≤ bits ∨ bits + 8 * min (g.varnode out).size 8 ≤ 64) ∧
    ∀ x, Within (x % 2 ^ 64) (mask wide) → ∀ i, (g.keptBits bits x out).testBit i = true →
      ((g.resultMask mask op out).toNat.testBit i = false ↔ bits < 64 ∧ 64 ≤ bits + i) := by
  refine ⟨⟨fun hsound => ?_, fun hpart x _ hx i hi => ?_⟩,
    fun x hx i hi => h.testBit_resultMask hwide hx hi⟩
  · -- the value whose only bit is the first one above the word
    by_contra hnot
    have hmask : Within (2 ^ 64 % 2 ^ 64) (mask wide) := by
      intro i hi
      rw [Nat.mod_self, Nat.zero_testBit] at hi
      cases hi
    have hbit : (g.keptBits bits (2 ^ 64) out).testBit (64 - bits) = true := by
      refine testBit_keptBits.mpr ⟨by omega, ?_⟩
      rw [Nat.add_sub_cancel' (by omega), Nat.testBit_two_pow_self]
    have hmissing := (h.testBit_resultMask hwide hmask hbit).mpr (by omega)
    have hheld := hsound (2 ^ 64) (Nat.pow_lt_pow_right (by decide) (by omega)) hmask _ hbit
    rw [hmissing] at hheld
    cases hheld
  · rw [← Bool.not_eq_false]
    intro hmissing
    have habove := (h.testBit_resultMask hwide hx hi).mp hmissing
    have hlow := (testBit_keptBits.mp hi).1
    omega

/-- The middle half of a wide input by a truncation, and its second quarter by a shift. -/
def wideParts : Graph :=
  let values := (Routine.empty "f" .simple 2 (TypeTable.empty 8)).newInput 16 ⟨1, 0⟩
    |>.newConstant 4 4 |>.newConstant 4 32 |>.newVarnode 8 ⟨1, 32⟩ |>.newVarnode 4 ⟨1, 48⟩
  values.graph.linkOp
      { opcode := .subpiece, address := ⟨1, 0⟩, inputs := [0, 1], output := some 3 }
    |>.linkOp { opcode := .intRight, address := ⟨1, 1⟩, inputs := [0, 2], output := some 4 }

/-- Eight bytes from the middle of a wide value can have bits that are not in their mask. The four
of them that are in the word cannot. -/
theorem wideParts_sound_iff :
    (∃ x < 2 ^ 128, Within (x % 2 ^ 64) (wideParts.installed 0) ∧
      ¬Within (wideParts.keptBits 32 x 3)
        (wideParts.resultMask wideParts.installed (wideParts.op 0) 3)) ∧
    ∀ x < 2 ^ 128, Within (x % 2 ^ 64) (wideParts.installed 0) →
      Within (wideParts.keptBits 32 x 4)
        (wideParts.resultMask wideParts.installed (wideParts.op 1) 4) := by
  have hsize : (wideParts.varnode 0).size = 16 := by decide +kernel
  have hbytes : 8 * (wideParts.varnode 1).address.offset.toNat = 32 := by decide +kernel
  have hbits : (wideParts.varnode 2).address.offset.toNat = 32 := by decide +kernel
  have htruncation : wideParts.DropsBits (wideParts.op 0) 32 :=
    hbytes ▸ .truncation (by decide +kernel) (by decide +kernel)
  have hshift : wideParts.DropsBits (wideParts.op 1) 32 :=
    hbits ▸ .shift (by decide +kernel) (by decide +kernel)
  have hinput : (wideParts.op 0).input? 0 = some 0 := by decide +kernel
  have hinput' : (wideParts.op 1).input? 0 = some 0 := by decide +kernel
  have hwide : 8 < (wideParts.varnode 0).size := by rw [hsize]; decide
  have hhalf := (htruncation.sound_iff hinput hwide wideParts.installed 3).1
  have hquarter := (hshift.sound_iff hinput' hwide wideParts.installed 4).1
  rw [hsize] at hhalf hquarter
  constructor
  · have hunsound := mt hhalf.mp (by decide +kernel)
    push Not at hunsound
    exact hunsound
  · exact hquarter.mpr (by decide +kernel)

end Graph

end TypeRecovery
