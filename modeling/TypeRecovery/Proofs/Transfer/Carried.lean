import Mathlib.Data.List.ProdSigma
import TypeRecovery.Proofs.DataType.Size
import TypeRecovery.Proofs.Transfer.Edge

/-!
# What an edge can carry

Whatever the opcode, an edge carries one of a few kinds of types: what its destination has already,
what flows into it, a pointer that replaces the pointer that flows into it, the pointer through
which a value is accessed, the pointee of a pointer, or a component of a structure or array. The
kinds are told apart here once, together with what each of them says about the size of the type and
about the values between which it is carried.
-/

namespace TypeRecovery

/-- The pairs of values of an op that are meant to have one size: a type may go from one to the
other as it is. -/
def Op.sameSized (op : Op) : List (VarnodeId × VarnodeId) :=
  let result := op.output.toList
  match op.opcode with
  | .copy | .multiEqual => op.inputs ×ˢ result
  -- operand 1 names the op that causes the effect
  | .indirect => op.inputs.eraseIdx 1 ×ˢ result
  | .intEqual | .intNotEqual | .intLess | .intLessEqual | .intSless | .intSlessEqual =>
    op.inputs ×ˢ op.inputs
  | .intAdd => (op.inputs ++ result) ×ˢ (op.inputs ++ result)
  | .ptrAdd | .ptrSub => (op.input? 0).toList ×ˢ result
  | _ => []

/-- The pairs of values of an op of which the first is accessed through the second, and is meant to
be no wider. -/
def Op.accesses (op : Op) : List (VarnodeId × VarnodeId) :=
  match op.opcode with
  | .load => op.output.toList ×ˢ op.inputs.drop 1
  | .store => (op.input? 2).toList ×ˢ (op.input? 1).toList
  | _ => []

/-- An op means two of its values to have one size. -/
def Op.Alike (op : Op) (v w : VarnodeId) : Prop := (v, w) ∈ op.sameSized ∨ (w, v) ∈ op.sameSized

/-- The edge leads from a value of its op to the value at another slot. -/
structure Edge.Joins (e : Edge) : Prop where
  /-- The source is at its slot. -/
  source : e.op.at? e.inSlot = some e.source
  /-- The destination is at its slot. -/
  dest : e.op.at? e.outSlot = some e.dest
  /-- The slots are different. -/
  ne : e.inSlot ≠ e.outSlot

section Joins

variable {e : Edge}

private theorem Edge.betweenInputs_iff :
    e.betweenInputs = true ↔ ∃ i j, e.inSlot = .input i ∧ e.outSlot = .input j := by
  rw [betweenInputs]
  cases e.inSlot <;> cases e.outSlot <;> simp [Slot.isInput]

/-- An edge that does not stay among the operands leads from an operand to the result or back. -/
theorem Edge.Joins.ends (h : e.Joins) (hb : ¬e.betweenInputs = true) :
    (∃ i, e.inSlot = .input i ∧ e.outSlot = .output ∧ e.op.input? i = some e.source ∧
        e.op.output = some e.dest) ∨
      ∃ i, e.inSlot = .output ∧ e.outSlot = .input i ∧ e.op.output = some e.source ∧
        e.op.input? i = some e.dest := by
  obtain ⟨hsource, hdest, hne⟩ := h
  rw [betweenInputs_iff] at hb
  cases hi : e.inSlot with
  | output =>
    cases ho : e.outSlot with
    | output => exact absurd (hi.trans ho.symm) hne
    | input i =>
      rw [hi] at hsource
      rw [ho] at hdest
      exact Or.inr ⟨i, rfl, rfl, hsource, hdest⟩
  | input i =>
    cases ho : e.outSlot with
    | output =>
      rw [hi] at hsource
      rw [ho] at hdest
      exact Or.inl ⟨i, rfl, rfl, hsource, hdest⟩
    | input j => exact absurd ⟨i, j, hi, ho⟩ hb

private theorem Edge.Joins.mem_inputs (h : e.Joins) (hb : e.betweenInputs = true) :
    e.source ∈ e.op.inputs ∧ e.dest ∈ e.op.inputs := by
  obtain ⟨hsource, hdest, -⟩ := h
  obtain ⟨i, j, hi, hj⟩ := betweenInputs_iff.mp hb
  rw [hi] at hsource
  rw [hj] at hdest
  exact ⟨Graph.mem_inputs_of_input? hsource, Graph.mem_inputs_of_input? hdest⟩

private theorem Edge.Joins.alike_of_copy (h : e.Joins) (hb : ¬e.betweenInputs = true)
    (hop : e.op.opcode = .copy ∨ e.op.opcode = .multiEqual) :
    e.op.Alike e.source e.dest := by
  have hpairs : e.op.sameSized = e.op.inputs ×ˢ e.op.output.toList := by
    rcases hop with hop | hop <;> simp only [Op.sameSized, hop]
  rw [Op.Alike, hpairs, List.mem_product, List.mem_product, Option.mem_toList, Option.mem_toList]
  rcases h.ends hb with ⟨i, -, -, hin, hout⟩ | ⟨i, -, -, hout, hin⟩
  · exact Or.inl ⟨Graph.mem_inputs_of_input? hin, hout⟩
  · exact Or.inr ⟨Graph.mem_inputs_of_input? hin, hout⟩

private theorem Edge.Joins.alike_of_indirect (h : e.Joins) (hb : ¬e.betweenInputs = true)
    (hcause : ¬e.touchesInput 1 = true) (hop : e.op.opcode = .indirect) :
    e.op.Alike e.source e.dest := by
  have hpairs : e.op.sameSized = e.op.inputs.eraseIdx 1 ×ˢ e.op.output.toList := by
    simp only [Op.sameSized, hop]
  rw [touchesInput, Bool.or_eq_true, decide_eq_true_iff, decide_eq_true_iff, not_or] at hcause
  rw [Op.Alike, hpairs, List.mem_product, List.mem_product, Option.mem_toList, Option.mem_toList,
    List.mem_eraseIdx_iff_getElem?, List.mem_eraseIdx_iff_getElem?]
  rcases h.ends hb with ⟨i, hi, -, hin, hout⟩ | ⟨i, -, hi, hout, hin⟩
  · refine Or.inl ⟨⟨i, ?_, hin⟩, hout⟩
    rintro rfl
    exact hcause.1 hi
  · refine Or.inr ⟨⟨i, ?_, hin⟩, hout⟩
    rintro rfl
    exact hcause.2 hi

private theorem Edge.Joins.alike_of_comparison (h : e.Joins)
    (hpairs : e.op.sameSized = e.op.inputs ×ˢ e.op.inputs) (hb : e.betweenInputs = true) :
    e.op.Alike e.source e.dest := by
  rw [Op.Alike, hpairs, List.mem_product]
  exact Or.inl (h.mem_inputs hb)

private theorem Edge.Joins.alike_of_intAdd (h : e.Joins) (hop : e.op.opcode = .intAdd) :
    e.op.Alike e.source e.dest := by
  have hmem {slot : Slot} {v : Nat} (hat : e.op.at? slot = some v) :
      v ∈ e.op.inputs ++ e.op.output.toList := by
    rw [List.mem_append, Option.mem_toList]
    exact Op.touches_of_at? hat
  simp only [Op.Alike, Op.sameSized, hop, List.mem_product]
  exact Or.inl ⟨hmem h.source, hmem h.dest⟩

private theorem Edge.Joins.mem_accesses_of_load (h : e.Joins) (hop : e.op.opcode = .load)
    (hin : e.inSlot = .output) (hspace : ¬e.touchesInput 0 = true) :
    (e.source, e.dest) ∈ e.op.accesses := by
  have hb : ¬e.betweenInputs = true := by simp [betweenInputs, hin, Slot.isInput]
  rcases h.ends hb with ⟨i, hi, -⟩ | ⟨i, -, hi, hout, hdest⟩
  · rw [hin] at hi
    cases hi
  · have hpos : 1 ≤ i := by
      apply Nat.pos_of_ne_zero
      rintro rfl
      simp [touchesInput, hi] at hspace
    simp only [Op.accesses, hop, List.mem_product, Option.mem_toList]
    refine ⟨hout, List.mem_iff_getElem?.mpr ⟨i - 1, ?_⟩⟩
    rw [List.getElem?_drop, Nat.add_sub_cancel' hpos]
    exact hdest

end Joins

namespace Transfer

open TypeTable

/-- What a type is that an edge carries. -/
inductive Carries (g : Graph) (s : TypeState) (e : Edge) (new : Interned) : Prop where
  /-- The type that the destination has. -/
  | kept (same : new.id = s.temporary e.dest)
  /-- The type of the edge. -/
  | passed (alike : e.op.Alike e.source e.dest) (same : new.id = e.type)
  /-- A pointer of the size of the type of the edge. -/
  | moved (alike : e.op.Alike e.source e.dest) (pointer : IsPointer new (s.types.size e.type))
  /-- A pointer to what is accessed, of the size of the type that the destination has. -/
  | address (access : (e.source, e.dest) ∈ e.op.accesses)
      (pointer : IsPointer new (s.types.size (s.temporary e.dest)))
  /-- A pointer that is itself the type of the edge. -/
  | nested (access : (e.source, e.dest) ∈ e.op.accesses) (same : new.id = e.type)
      (pointer : s.types.metatype e.type = .ptr)
  /-- What a pointer points to, of the size of the type that the destination has. -/
  | pointee (access : e.op.opcode = .load ∧ e.inSlot.isInput = true ∨
        e.op.opcode = .store ∧ e.inSlot = .input 1 ∧ e.outSlot = .input 2)
      (target : s.types.pointee? e.type = some new.id)
      (size : s.types.size new.id = s.types.size (s.temporary e.dest))
  /-- A component of a structure or array, of the size of the destination. -/
  | piece (truncation : e.op.opcode = .subpiece ∧ e.inSlot = .input 0 ∧ e.outSlot = .output)
      (aggregate : s.types.metatype e.type = .struct ∨ s.types.metatype e.type = .array)
      (offset : Nat)
      (component : s.types.exactPiece e.type offset (g.varnode e.dest).size = some new.id)

variable {g : Graph} {s : TypeState} {e : Edge} {new : Interned}

private theorem carries_passThrough (halike : e.op.Alike e.source e.dest) :
    Carries g s e (passThrough g s.types e) := by
  rw [passThrough]
  split
  · rw [bytePointer_eq]
    exact .moved halike (isPointer_blurredPointer ..)
  · exact .passed halike rfl

private theorem carries_copy (halike : ¬e.betweenInputs = true → e.op.Alike e.source e.dest)
    (h : copy g s.types e = some new) : Carries g s e new := by
  rw [copy] at h
  split at h
  · cases h
  · rename_i hb
    cases h
    exact carries_passThrough (halike hb)

private theorem carries_indirect (he : e.Joins) (hop : e.op.opcode = .indirect)
    (h : indirect g s.types e = some new) : Carries g s e new := by
  rw [indirect] at h
  split at h
  · cases h
  · rename_i hcause
    rw [Bool.or_eq_true, not_or] at hcause
    exact carries_copy (fun hb => he.alike_of_indirect hb hcause.2 hop) h

private theorem carries_comparison (halike : e.betweenInputs = true → e.op.Alike e.source e.dest)
    (h : comparison g s.types e = some new) : Carries g s e new := by
  rw [comparison] at h
  split at h
  · rename_i hb
    cases h
    exact carries_passThrough (halike hb)
  · cases h

private theorem carries_signedComparison
    (halike : e.betweenInputs = true → e.op.Alike e.source e.dest)
    (h : signedComparison s.types e = some new) : Carries g s e new := by
  rw [signedComparison] at h
  split at h
  · rename_i hb
    cases h
    exact .passed (halike hb.1) rfl
  · cases h

private theorem carries_toPointer (haccess : (e.source, e.dest) ∈ e.op.accesses) :
    Carries g s e (toPointer g s e) := by
  rw [toPointer]
  rcases s.types.isPointer_pointerNoDepth (s.types.size (s.temporary e.dest)) e.type
    (accessedWordSize g e.op) with hpointer | ⟨hsame, hptr⟩
  · exact .address haccess hpointer
  · rw [hsame]
    exact .nested haccess rfl hptr

private theorem carries_fromPointer
    (haccess : e.op.opcode = .load ∧ e.inSlot.isInput = true ∨
      e.op.opcode = .store ∧ e.inSlot = .input 1 ∧ e.outSlot = .input 2) :
    Carries g s e ⟨fromPointer s e, s.types⟩ := by
  rw [fromPointer]
  cases hp : s.types.pointee? e.type with
  | none => exact .kept rfl
  | some pointee =>
    dsimp only
    split
    · rename_i hsize
      exact .pointee haccess hp hsize
    · exact .kept rfl

/-- A load carries a pointer to what is loaded, or what a pointer points to. -/
theorem carries_load (he : e.Joins) (hop : e.op.opcode = .load) (h : load g s e = some new) :
    Carries g s e new := by
  rw [load] at h
  split at h
  · cases h
  · rename_i hspace
    rw [Bool.or_eq_true, not_or] at hspace
    split at h
    · rename_i hin
      cases h
      exact carries_toPointer (he.mem_accesses_of_load hop hin hspace.1)
    · rename_i hin
      cases h
      refine carries_fromPointer (Or.inl ⟨hop, ?_⟩)
      cases hslot : e.inSlot with
      | output => exact absurd hslot hin
      | input i => rfl

/-- A store carries a pointer to what is stored, or what a pointer points to. -/
theorem carries_store (he : e.Joins) (hop : e.op.opcode = .store) (h : store g s e = some new) :
    Carries g s e new := by
  rw [store] at h
  split at h
  · cases h
  · split at h
    · rename_i hslots
      cases h
      have hsource := he.source
      have hdest := he.dest
      rw [hslots.1] at hsource
      rw [hslots.2] at hdest
      apply carries_toPointer
      simp only [Op.accesses, hop, List.mem_product, Option.mem_toList]
      exact ⟨hsource, hdest⟩
    · split at h
      · rename_i hslots
        cases h
        exact carries_fromPointer (Or.inr ⟨hop, hslots⟩)
      · cases h

/-! ## Pointer arithmetic -/

private theorem carries_advance (halike : e.op.Alike e.source e.dest) (units : UInt64) :
    Carries g s e (advance g s e (s.temporary e.dest) units) := by
  rw [advance]
  generalize (units * UInt64.ofNat (s.types.wordSize e.type)).toNat = bytes
  dsimp only
  cases hp : (s.types.descend (e.op.opcode ≠ .ptrSub) e.type bytes).pointer with
  | none =>
    dsimp only
    by_cases hzero : units = 0
    · exact .passed halike (if_pos hzero)
    · exact .kept (if_neg hzero)
  | some ptr =>
    have hpointer := isPointer_descend hp
    dsimp only
    split
    · refine .moved halike ?_
      rw [← hpointer.size]
      exact isPointer_pointerSized ..
    · exact .moved halike hpointer

/-- What flows into a sum, if an operand that is moved by it is as wide as the result. -/
theorem carries_sum {slot : Nat} (hout : e.op.output = some e.dest)
    (halike : ∀ size, addend g s e.op slot size ≠ .other → e.op.Alike e.source e.dest) :
    Carries g s e (sum g s e slot) := by
  have hresult : (e.op.output.map s.temporary).getD e.type = s.temporary e.dest := by
    rw [hout, Option.map_some, Option.getD_some]
  unfold sum
  rw [hresult]
  dsimp only
  cases s.types.pointee? e.type with
  | none => exact .kept rfl
  | some pointee =>
    dsimp only
    cases ha : addend g s e.op slot (s.types.size pointee) with
    | other => exact .kept rfl
    | index => exact .passed (halike _ (by rw [ha]; exact Addend.noConfusion)) rfl
    | offset units => exact carries_advance (halike _ (by rw [ha]; exact Addend.noConfusion)) units

private theorem carries_sumEdge (he : e.Joins) (hb : ¬e.betweenInputs = true)
    (halike : ∀ slot size, e.inSlot = .input slot → addend g s e.op slot size ≠ .other →
      e.op.Alike e.source e.dest) : Carries g s e (sumEdge g s e) := by
  rw [sumEdge]
  rcases he.ends hb with ⟨i, hi, -, -, hout⟩ | ⟨i, hi, -⟩
  · rw [hi]
    exact carries_sum hout fun size => halike i size hi
  · rw [hi]
    exact .kept rfl

/-- An addition carries pointers that it moves, or a type to its constant. -/
theorem carries_intAdd (he : e.Joins) (hop : e.op.opcode = .intAdd)
    (h : intAdd g s e = some new) : Carries g s e new := by
  have halike := he.alike_of_intAdd hop
  rw [intAdd] at h
  split at h
  · split at h
    · cases h
    · rename_i hb
      cases h
      exact carries_sumEdge he hb fun _ _ _ _ => halike
  · split at h
    · split at h
      · cases h
        exact .passed halike rfl
      · cases h
    · cases h

/-- A pointer step moves only the pointer at operand 0. -/
theorem slot_of_addend {op : Op} (hop : op.opcode = .ptrAdd ∨ op.opcode = .ptrSub)
    {slot size : Nat} (h : addend g s op slot size ≠ .other) : slot = 0 := by
  by_contra hslot
  apply h
  rcases hop with hop | hop <;> simp only [addend, hop, if_neg hslot]

private theorem carries_ptrSub (he : e.Joins) (hop : e.op.opcode = .ptrAdd ∨ e.op.opcode = .ptrSub)
    (h : ptrSub g s e = some new) : Carries g s e new := by
  have hpairs : e.op.sameSized = (e.op.input? 0).toList ×ˢ e.op.output.toList := by
    rcases hop with hop | hop <;> simp only [Op.sameSized, hop]
  rw [ptrSub] at h
  split at h
  · cases h
  · rename_i hb
    rw [not_or] at hb
    cases h
    refine carries_sumEdge he hb.1 fun slot size hslot haddend => ?_
    obtain rfl := slot_of_addend hop haddend
    rcases he.ends hb.1 with ⟨i, hi, -, hin, hout⟩ | ⟨i, hi, -⟩
    · obtain rfl := Slot.input.inj (hslot.symm.trans hi)
      rw [Op.Alike, hpairs, List.mem_product, Option.mem_toList, Option.mem_toList]
      exact Or.inl ⟨hin, hout⟩
    · rw [hslot] at hi
      cases hi

private theorem carries_ptrAdd (he : e.Joins) (hop : e.op.opcode = .ptrAdd)
    (h : ptrAdd g s e = some new) : Carries g s e new := by
  rw [ptrAdd] at h
  split at h
  · cases h
  · exact carries_ptrSub he (Or.inl hop) h

/-- A truncation carries a component. -/
theorem carries_subpiece (hop : e.op.opcode = .subpiece) (h : subpiece g s e = some new) :
    Carries g s e new := by
  rw [subpiece] at h
  split at h
  · rename_i hslots
    cases ho : truncationOffset? g e with
    | none => rw [ho] at h; cases h
    | some offset =>
      simp only [ho, Option.map_eq_some_iff] at h
      obtain ⟨piece, hpiece, rfl⟩ := h
      exact .piece ⟨hop, hslots.1, hslots.2.1⟩ hslots.2.2 offset hpiece
  · cases h

/-- Every type that an edge carries is of one of the kinds. -/
theorem carries_transfer (he : e.Joins) (h : transfer g s e = some new) : Carries g s e new := by
  unfold transfer at h
  split at h
  all_goals rename_i hop
  · exact carries_copy (fun hb => he.alike_of_copy hb (Or.inl hop)) h
  · exact carries_copy (fun hb => he.alike_of_copy hb (Or.inr hop)) h
  · exact carries_indirect he hop h
  · exact carries_comparison (he.alike_of_comparison (by simp only [Op.sameSized, hop])) h
  · exact carries_comparison (he.alike_of_comparison (by simp only [Op.sameSized, hop])) h
  · exact carries_comparison (he.alike_of_comparison (by simp only [Op.sameSized, hop])) h
  · exact carries_comparison (he.alike_of_comparison (by simp only [Op.sameSized, hop])) h
  · exact carries_signedComparison (he.alike_of_comparison (by simp only [Op.sameSized, hop])) h
  · exact carries_signedComparison (he.alike_of_comparison (by simp only [Op.sameSized, hop])) h
  · exact carries_load he hop h
  · exact carries_store he hop h
  · exact carries_intAdd he hop h
  · exact carries_ptrAdd he hop h
  · exact carries_ptrSub he (Or.inr hop) h
  · exact carries_subpiece hop h
  · cases h

end Transfer

end TypeRecovery
