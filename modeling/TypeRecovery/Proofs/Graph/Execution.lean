import Mathlib.Algebra.Group.Nat.Defs
import Mathlib.Logic.Function.Basic
import Mathlib.Logic.Relation
import TypeRecovery.Proofs.Graph.Links
import TypeRecovery.Proofs.Graph.Mask

/-!
# Executions and masks

Executing an op writes its result, cut to its size, to a value. An execution is any sequence of
such steps, in any order and with any repetitions, so it covers every path through the function.
Masks that hold what each op gives to its result bound every value that an execution can produce.
-/

namespace TypeRecovery

/-- Whether nothing is known of the bits of the result. -/
def Opcode.isOpaque : Opcode → Bool
  | .copy | .intZext | .multiEqual | .intOr | .intXor | .intAnd | .piece | .subpiece
  | .intLeft | .intRight => false
  | opcode => !opcode.isBoolean

/-- What the values hold at some point of an execution. A value that nothing has written yet holds
nothing. -/
abbrev Valuation := VarnodeId → Option Nat

/-- What an operand holds. -/
def Valuation.operand? (env : Valuation) (op : Op) (index : Nat) : Option Nat :=
  (op.input? index).bind env

namespace Graph

/-- The results that an op can compute, before they are cut to their size. -/
inductive Computes (g : Graph) (env : Valuation) (op : Op) : Nat → Prop where
  /-- Copies and extensions by zeros give their operand. -/
  | move {a : Nat} (hop : op.opcode = .copy ∨ op.opcode = .intZext)
      (ha : env.operand? op 0 = some a) : Computes g env op a
  /-- A merge gives any of its operands. -/
  | merge {v : VarnodeId} {a : Nat} (hop : op.opcode = .multiEqual) (hv : v ∈ op.inputs)
      (ha : env v = some a) : Computes g env op a
  | or {a b : Nat} (hop : op.opcode = .intOr) (ha : env.operand? op 0 = some a)
      (hb : env.operand? op 1 = some b) : Computes g env op (a ||| b)
  | xor {a b : Nat} (hop : op.opcode = .intXor) (ha : env.operand? op 0 = some a)
      (hb : env.operand? op 1 = some b) : Computes g env op (a ^^^ b)
  | and {a b : Nat} (hop : op.opcode = .intAnd) (ha : env.operand? op 0 = some a)
      (hb : env.operand? op 1 = some b) : Computes g env op (a &&& b)
  /-- A concatenation puts its first operand above the bytes of the second. -/
  | piece {low : VarnodeId} {a b : Nat} (hop : op.opcode = .piece)
      (ha : env.operand? op 0 = some a) (hlow : op.input? 1 = some low) (hb : env low = some b) :
      Computes g env op (a <<< (8 * (g.varnode low).size) ||| b)
  /-- A truncation drops low bytes. -/
  | subpiece {a bytes : Nat} (hop : op.opcode = .subpiece) (ha : env.operand? op 0 = some a)
      (hbytes : env.operand? op 1 = some bytes) : Computes g env op (a >>> (8 * bytes))
  | shiftLeft {a bits : Nat} (hop : op.opcode = .intLeft) (ha : env.operand? op 0 = some a)
      (hbits : env.operand? op 1 = some bits) : Computes g env op (a <<< bits)
  | shiftRight {a bits : Nat} (hop : op.opcode = .intRight) (ha : env.operand? op 0 = some a)
      (hbits : env.operand? op 1 = some bits) : Computes g env op (a >>> bits)
  /-- Truth values are zero and one. -/
  | truth {a : Nat} (hop : op.opcode.isBoolean = true) (ha : a ≤ 1) : Computes g env op a
  /-- Any other op gives anything. -/
  | anything {a : Nat} (hop : op.opcode.isOpaque = true) : Computes g env op a

/-- Executing an op that has a result writes the result, cut to its size. -/
inductive Step (g : Graph) (env : Valuation) : Valuation → Prop where
  | write {o : OpId} {out : VarnodeId} {a : Nat} (hout : (g.op o).output = some out)
      (ha : g.Computes env (g.op o) a) :
      Step g env (Function.update env out (some (a % 2 ^ (8 * (g.varnode out).size))))

/-- A valuation in which an execution can start: values that are written later hold nothing yet,
the others lie within their masks, and constants hold their own value. -/
structure Start (g : Graph) (env : Valuation) : Prop where
  /-- Only values that no op writes hold anything. -/
  unwritten : ∀ v a, env v = some a → (g.varnode v).isWritten = false
  /-- What is held lies within the mask. -/
  within : ∀ v a, env v = some a → Within a (g.varnode v).mask
  /-- A constant holds its own value. -/
  constant : ∀ v a, (g.varnode v).constant = true → env v = some a →
    a = (g.varnode v).address.offset.toNat

variable {g : Graph} {env env' : Valuation} {op : Op} {a i : Nat} {mask : VarnodeId → UInt64}

/-! ## The bits of one result -/

/-- All bits are set in the full mask. -/
theorem testBit_allBits (hi : i < 64) : allBits.toNat.testBit i = true := by
  rw [show allBits.toNat = 2 ^ 64 - 1 from rfl, Nat.testBit_two_pow_sub_one]
  exact decide_eq_true hi

/-- A union of masks contains each of them. -/
theorem within_foldl_or (l : List VarnodeId) (acc : UInt64) :
    Within acc.toNat (l.foldl (fun acc v => acc ||| mask v) acc) ∧
      ∀ v ∈ l, Within (mask v).toNat (l.foldl (fun acc v => acc ||| mask v) acc) := by
  induction l generalizing acc with
  | nil => exact ⟨fun _ h => h, fun v hv => by cases hv⟩
  | cons w rest ih =>
    obtain ⟨hacc, hrest⟩ := ih (acc ||| mask w)
    refine ⟨(within_or_left acc (mask w)).trans hacc, fun v hv => ?_⟩
    rcases List.mem_cons.mp hv with rfl | hlater
    · exact (within_or_right acc (mask v)).trans hacc
    · exact hrest v hlater

/-- A valuation lies within masks, and constants hold their own value. -/
structure Bounded (g : Graph) (mask : VarnodeId → UInt64) (env : Valuation) : Prop where
  /-- What is held lies within the mask. -/
  within : ∀ v a, env v = some a → Within a (mask v)
  /-- A constant holds its own value. -/
  constant : ∀ v a, (g.varnode v).constant = true → env v = some a →
    a = (g.varnode v).address.offset.toNat

/-- The mask of an operand bounds its value. -/
theorem Bounded.operand (h : g.Bounded mask env) {index : Nat}
    (ha : env.operand? op index = some a) : Within a (operandMask mask op index) := by
  obtain ⟨v, hv, ha⟩ := Option.bind_eq_some_iff.mp ha
  rw [operandMask, hv]
  exact h.within v a ha

/-- A constant operand has the value of the constant. -/
theorem Bounded.constant? (h : g.Bounded mask env) {index : Nat} {c : Varnode}
    (hc : g.constant? op index = some c) (ha : env.operand? op index = some a) :
    a = c.address.offset.toNat := by
  obtain ⟨v, hv, ha⟩ := Option.bind_eq_some_iff.mp ha
  rw [Graph.constant?, hv] at hc
  dsimp only at hc
  split at hc
  · rename_i hconstant
    cases hc
    exact h.constant v a hconstant ha
  · cases hc

/-- What an operand holds lies within the masks of all operands taken together. -/
theorem Bounded.operands (h : g.Bounded mask env) {index : Nat}
    (ha : env.operand? op index = some a) :
    Within a (op.inputs.foldl (fun acc v => acc ||| mask v) 0) := by
  obtain ⟨v, hv, ha⟩ := Option.bind_eq_some_iff.mp ha
  exact (h.within v a ha).trans ((within_foldl_or op.inputs 0).2 v (mem_inputs_of_input? hv))

/-- A mask that is computed from a constant operand has a bit if it has the bit for what the operand
holds. -/
theorem Bounded.testBit_of_constant (h : g.Bounded mask env) {n : Nat}
    (hn : env.operand? op 1 = some n) (limit : UInt64) {f : Nat → UInt64} (hi : i < 64)
    (hf : (f n).toNat.testBit i = true) :
    (match g.constant? op 1 with
      | some c => if c.address.offset < limit then f c.address.offset.toNat else allBits
      | none => allBits).toNat.testBit i = true := by
  cases hc : g.constant? op 1 with
  | none => exact testBit_allBits hi
  | some c =>
    dsimp only
    split
    · rw [← h.constant? hc hn]
      exact hf
    · exact testBit_allBits hi

/-- An opaque op may set all bits. -/
theorem opMask_of_isOpaque (h : op.opcode.isOpaque = true) : g.opMask mask op = allBits := by
  rw [opMask]
  cases hop : op.opcode <;> rw [hop] at h <;> first | rfl | cases h

/-- The mask of an op has each of the low 64 bits of a result that the op can compute. -/
theorem Computes.testBit_opMask (h : g.Computes env op a) (henv : g.Bounded mask env)
    (hi : i < 64) (ha : a.testBit i = true) : (g.opMask mask op).toNat.testBit i = true := by
  cases h with
  | move hop ha' =>
    have hmask := henv.operand ha' i ha
    rcases hop with hop | hop <;>
      simpa only [opMask, hop, Opcode.isBoolean, Bool.false_eq_true, if_false] using hmask
  | merge hop hv ha' =>
    have hmask := (within_foldl_or op.inputs 0).2 _ hv i (henv.within _ _ ha' i ha)
    simpa only [opMask, hop, Opcode.isBoolean, Bool.false_eq_true, if_false] using hmask
  | or hop ha' hb =>
    rw [Nat.testBit_or, Bool.or_eq_true] at ha
    simp only [opMask, hop, Opcode.isBoolean, Bool.false_eq_true, if_false]
    exact ha.elim (henv.operands ha' i) (henv.operands hb i)
  | @xor b c hop ha' hb =>
    simp only [opMask, hop, Opcode.isBoolean, Bool.false_eq_true, if_false]
    rw [Nat.testBit_xor] at ha
    -- a bit of the result is a bit of one operand
    cases hbit : b.testBit i with
    | true => exact henv.operands ha' i hbit
    | false =>
      rw [hbit, Bool.false_xor] at ha
      exact henv.operands hb i ha
  | and hop ha' hb =>
    rw [Nat.testBit_and, Bool.and_eq_true] at ha
    have hmask := henv.operand ha' i ha.1
    have hmask' := henv.operand hb i ha.2
    simp [opMask, hop, Opcode.isBoolean, hmask, hmask']
  | @piece low b c hop ha' hlow hc =>
    rw [Nat.testBit_or, Bool.or_eq_true, Nat.testBit_shiftLeft, Bool.and_eq_true] at ha
    have hlowMask : env.operand? op 1 = some c := by rw [Valuation.operand?, hlow]; exact hc
    simp only [opMask, hop, Opcode.isBoolean, Bool.false_eq_true, if_false]
    rw [UInt64.toNat_or, Nat.testBit_or, testBit_shiftLeft _ hi, Bool.or_eq_true, Bool.and_eq_true]
    rcases ha with ⟨hge, hbit⟩ | hbit
    · -- a bit that is not shifted out of the low word was shifted by less than 64
      have hshort := of_decide_eq_true hge
      have hbits : (g.lowBits op).toNat = 8 * (g.varnode low).size := by
        rw [toNat_lowBits, hlow, Option.elim_some]
        rw [hlow, Option.elim_some]
        exact Nat.lt_trans (Nat.lt_of_le_of_lt hshort hi) (by decide)
      rw [hbits]
      exact Or.inl ⟨hge, henv.operand ha' _ hbit⟩
    · exact Or.inr (henv.operand hlowMask i hbit)
  | @subpiece b bytes hop ha' hbytes =>
    rw [Nat.testBit_shiftRight] at ha
    have hmask :
        (TypeRecovery.shiftRight (operandMask mask op 0) (8 * bytes)).toNat.testBit i = true := by
      rw [testBit_shiftRight]
      exact henv.operand ha' _ ha
    simp only [opMask, hop, Opcode.isBoolean, Bool.false_eq_true, if_false]
    exact henv.testBit_of_constant hbytes 8
      (f := fun n => TypeRecovery.shiftRight (operandMask mask op 0) (8 * n)) hi hmask
  | @shiftLeft b bits hop ha' hbits =>
    rw [Nat.testBit_shiftLeft, Bool.and_eq_true] at ha
    have hmask : (TypeRecovery.shiftLeft (operandMask mask op 0) bits).toNat.testBit i = true := by
      rw [testBit_shiftLeft _ hi, Bool.and_eq_true]
      exact ⟨ha.1, henv.operand ha' _ ha.2⟩
    simp only [opMask, hop, Opcode.isBoolean, Bool.false_eq_true, if_false]
    exact henv.testBit_of_constant hbits 64 hi hmask
  | @shiftRight b bits hop ha' hbits =>
    rw [Nat.testBit_shiftRight] at ha
    have hmask : (TypeRecovery.shiftRight (operandMask mask op 0) bits).toNat.testBit i = true := by
      rw [testBit_shiftRight]
      exact henv.operand ha' _ ha
    simp only [opMask, hop, Opcode.isBoolean, Bool.false_eq_true, if_false]
    exact henv.testBit_of_constant hbits 64 hi hmask
  | truth hop hle =>
    rw [opMask, if_pos hop]
    have hone : a = 1 := by
      rcases Nat.le_one_iff_eq_zero_or_eq_one.mp hle with rfl | rfl
      · simp at ha
      · rfl
    rwa [hone] at ha
  | anything hop =>
    rw [opMask_of_isOpaque hop]
    exact testBit_allBits hi

/-- A result that is cut to at most eight bytes lies within the mask that its op gives it. -/
theorem Computes.within_resultMask (h : g.Computes env op a) (henv : g.Bounded mask env)
    {out : Nat} (hout : (g.varnode out).size ≤ 8) :
    Within (a % 2 ^ (8 * (g.varnode out).size)) (g.resultMask mask op out) := by
  intro i hi
  rw [Nat.testBit_mod_two_pow, Bool.and_eq_true, decide_eq_true_eq] at hi
  rw [resultMask, UInt64.toNat_and, Nat.testBit_and, Bool.and_eq_true, testBit_byteMask,
    decide_eq_true_eq]
  exact ⟨h.testBit_opMask henv (by omega) hi.2, by omega⟩

/-! ## Executions -/

/-- A step keeps a valuation within masks that hold what each op gives to its result. -/
theorem Step.bounded (h : g.Step env env') (hg : g.WellFormed) (hplaced : g.Placed)
    (hsizes : ∀ node ∈ g.varnodes, node.size ≤ 8) {m : Masks} (hm : g.Solves m)
    (henv : g.Bounded m.get env) : g.Bounded m.get env' := by
  obtain ⟨hout, ha⟩ := h
  rename_i o out b
  have hsize : (g.varnode out).size ≤ 8 := by
    rw [varnode, Array.getElem?_eq_getElem (hg.lt_of_output hout)]
    exact hsizes _ (Array.getElem_mem _)
  have hmem : g.op o ∈ g.ops := by
    rcases g.op_mem_or o with hmem | hnone
    · exact hmem
    · rw [hnone] at hout
      cases hout
  refine ⟨fun v c hc => ?_, fun v c hconstant hc => ?_⟩
  · by_cases hv : v = out
    · subst hv
      rw [Function.update_self] at hc
      cases hc
      exact (ha.within_resultMask henv hsize).trans (hm _ hmem v hout)
    · rw [Function.update_of_ne hv] at hc
      exact henv.within v c hc
  · have hv : v ≠ out := by
      rintro rfl
      have hnone := hplaced.constants v hconstant
      rw [(hg.writes o v).mp hout] at hnone
      cases hnone
    rw [Function.update_of_ne hv] at hc
    exact henv.constant v c hconstant hc

/-- At the start all values are within their masks. -/
theorem Start.bounded (h : g.Start env) (hg : g.WellFormed) : g.Bounded g.masks.get env := by
  refine ⟨fun v a ha => ?_, h.constant⟩
  rw [hg.masks_of_unwritten (h.unwritten v a ha)]
  exact h.within v a ha

/-- The computed masks bound every value of every execution: whatever ops are executed, in any
order and number, what a value holds has no bit outside the mask computed for it. -/
theorem WellFormed.within_computeMasks (hg : g.WellFormed) (hplaced : g.Placed)
    (hsizes : ∀ node ∈ g.varnodes, node.size ≤ 8) {start : Valuation} (hstart : g.Start start)
    (hrun : Relation.ReflTransGen g.Step start env) {v : VarnodeId} {a : Nat}
    (ha : env v = some a) : Within a (g.computeMasks.varnode v).mask := by
  have hbounded : g.Bounded g.masks.get env := by
    clear ha
    induction hrun with
    | refl => exact hstart.bounded hg
    | tail _ hstep ih => exact hstep.bounded hg hplaced hsizes hg.solves_masks ih
  rw [hg.mask_computeMasks]
  exact hbounded.within v a ha

/-- A value that goes around a loop: it is merged with an input that has four bits and then shifted
by a byte. -/
def looped : Graph :=
  let values := (Routine.empty "f" .simple 2 (TypeTable.empty 8)).newInput 2 ⟨1, 0⟩
    |>.newConstant 8 8 |>.newVarnode 4 ⟨1, 8⟩ |>.newVarnode 4 ⟨1, 12⟩
  (values.graph.setMask 0 0xf0).linkOp
      { opcode := .multiEqual, address := ⟨1, 0⟩, inputs := [0, 3], output := some 2 }
    |>.linkOp { opcode := .intLeft, address := ⟨1, 1⟩, inputs := [2, 1], output := some 3 }

/-- What goes around the loop once has none of the bits that the loop never sets. -/
theorem looped_within_computeMasks : ∃ start env, looped.Start start ∧
    Relation.ReflTransGen looped.Step start env ∧ env 2 = some 0x3000 ∧
      Within 0x3000 (looped.computeMasks.varnode 2).mask ∧
      (looped.computeMasks.varnode 2).mask = 0xf0f0f0f0 := by
  have hg : looped.WellFormed := by decide +kernel
  have hplaced : looped.Placed := by decide +kernel
  let start : Valuation := fun v => if v = 0 then some 0x30 else if v = 1 then some 8 else none
  have hcases (v a : Nat) (ha : start v = some a) : v = 0 ∧ a = 0x30 ∨ v = 1 ∧ a = 8 := by
    simp only [start] at ha
    split at ha
    · exact Or.inl ⟨by assumption, (Option.some.inj ha).symm⟩
    · split at ha
      · exact Or.inr ⟨by assumption, (Option.some.inj ha).symm⟩
      · cases ha
  have hstart : looped.Start start := by
    refine ⟨fun v a ha => ?_, fun v a ha => ?_, fun v a hconstant ha => ?_⟩ <;>
      obtain ⟨rfl, rfl⟩ | ⟨rfl, rfl⟩ := hcases v a ha
    · decide +kernel
    · decide +kernel
    · decide +kernel
    · decide +kernel
    · exact absurd hconstant (by decide +kernel)
    · decide +kernel
  let merged := Function.update start 2 (some 0x30)
  have hmerge : looped.Step start merged :=
    .write (o := 0) (a := 0x30) rfl (.merge (v := 0) rfl (by decide +kernel) rfl)
  let shifted := Function.update merged 3 (some 0x3000)
  have hshift : looped.Step merged shifted :=
    .write (o := 1) (a := 0x30 <<< 8) rfl (.shiftLeft rfl rfl rfl)
  let again := Function.update shifted 2 (some 0x3000)
  have hagain : looped.Step shifted again :=
    .write (o := 0) (a := 0x3000) rfl (.merge (v := 3) rfl (by decide +kernel) rfl)
  have hrun : Relation.ReflTransGen looped.Step start again :=
    ((Relation.ReflTransGen.single hmerge).tail hshift).tail hagain
  exact ⟨start, again, hstart, hrun, rfl,
    hg.within_computeMasks hplaced (by decide +kernel) hstart hrun rfl, by decide +kernel⟩

end Graph

end TypeRecovery
