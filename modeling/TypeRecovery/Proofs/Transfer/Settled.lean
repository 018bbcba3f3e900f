import TypeRecovery.Proofs.Transfer.Edge

/-!
# Transfer along an edge that was followed

Once the destination of an edge has taken the type that the edge carries, the edge carries nothing
new. The same holds when the destination gets another type later: then the edge carries what it
carried before, or the type that the destination already holds. There are two exceptions. A load or
a store looks at the size of the type at its destination, and an addition at whether the constant
that it adds is a pointer.
-/

namespace TypeRecovery

namespace Transfer

open TypeTable

variable {g : Graph} {e : Edge} {s s' : TypeState}

/-! ## Edges whose destination has taken what they carry -/

private theorem toPointer_settled (hs : s.Valid) (he : s.types.Has e.type)
    (hu : (toPointer g s e).table.Extends s'.types)
    (hdest : s'.temporary e.dest = (toPointer g s e).id) :
    toPointer g s' e = (toPointer g s e).into s'.types := by
  rw [toPointer, hdest]
  exact pointerNoDepth_resized hs.types he hu

private theorem fromPointer_settled (he : s.types.Has e.type)
    (hu : s.types.Extends s'.types) (hne : fromPointer s e ≠ s.temporary e.dest)
    (hdest : s'.temporary e.dest = fromPointer s e) : fromPointer s' e = fromPointer s e := by
  rw [fromPointer] at hne hdest ⊢
  rw [fromPointer, hu.pointee? he]
  cases hp : s.types.pointee? e.type with
  | none => rw [hp] at hne; exact absurd rfl hne
  | some pointee =>
    rw [hp] at hne hdest
    dsimp only at hne hdest ⊢
    split at hne
    · rename_i hsize
      rw [if_pos hsize] at hdest
      rw [hdest, if_pos rfl, if_pos hsize]
    · exact absurd rfl hne

/-- A load that was taken carries the same type again. -/
theorem load_settled (hs : s.Valid) (he : s.types.Has e.type) {i : Interned}
    (h : load g s e = some i) (hne : i.id ≠ s.temporary e.dest)
    (hu : i.table.Extends s'.types) (hdest : s'.temporary e.dest = i.id) :
    load g s' e = some (i.into s'.types) := by
  rw [load] at h ⊢
  split at h
  · cases h
  · rename_i hspace
    rw [if_neg hspace]
    split at h
    · rename_i hout
      cases h
      rw [if_pos hout, toPointer_settled hs he hu hdest]
    · rename_i hin
      cases h
      rw [if_neg hin, fromPointer_settled he hu hne hdest]
      rfl

/-- A store that was taken carries the same type again. -/
theorem store_settled (hs : s.Valid) (he : s.types.Has e.type) {i : Interned}
    (h : store g s e = some i) (hne : i.id ≠ s.temporary e.dest)
    (hu : i.table.Extends s'.types) (hdest : s'.temporary e.dest = i.id) :
    store g s' e = some (i.into s'.types) := by
  rw [store] at h ⊢
  split at h
  · cases h
  · rename_i hspace
    rw [if_neg hspace]
    split at h
    · rename_i hvalue
      cases h
      rw [if_pos hvalue, toPointer_settled hs he hu hdest]
    · rename_i hvalue
      rw [if_neg hvalue]
      split at h
      · rename_i haddress
        cases h
        rw [if_pos haddress, fromPointer_settled he hu hne hdest]
        rfl
      · cases h

/-- The types of the operands decide only whether an addition looks like pointer arithmetic at all.
-/
theorem addend_settled (s' : TypeState) {op : Op} {slot size : Nat}
    (h : addend g s op slot size ≠ .other) :
    addend g s' op slot size = addend g s op slot size ∨ addend g s' op slot size = .other := by
  unfold addend at h ⊢
  split
  · exact Or.inl rfl
  · exact Or.inl rfl
  · rename_i hop
    simp only [hop] at h
    rw [plainAddend] at h ⊢
    rw [plainAddend]
    cases hv : op.input? (if slot = 0 then 1 else 0) with
    | none => exact Or.inl rfl
    | some v =>
      rw [hv] at h
      dsimp only at h ⊢
      split
      · rename_i hconst
        rw [if_pos hconst] at h
        by_cases hptr : s'.types.metatype (s'.temporary v) = .ptr
        · exact Or.inr (if_pos hptr)
        · have hold : ¬s.types.metatype (s.temporary v) = .ptr := fun hold => h (if_pos hold)
          rw [if_neg hptr, if_neg hold]
          exact Or.inl rfl
      · exact Or.inl rfl
  · exact Or.inl rfl

private theorem sum_settled (hs : s.Valid) (he : s.types.Has e.type)
    (hout : e.op.output = some e.dest) {slot : Nat} (hne : (sum g s e slot).id ≠ s.temporary e.dest)
    (hu : (sum g s e slot).table.Extends s'.types)
    (hdest : s'.temporary e.dest = (sum g s e slot).id) :
    sum g s' e slot = (sum g s e slot).into s'.types := by
  have htu := (gives_sum hs he slot).grows.extends.trans hu
  unfold sum at hne hu hdest ⊢
  simp only [hout, Option.map_some, Option.getD_some, htu.pointee? he] at hne hu hdest ⊢
  cases hp : s.types.pointee? e.type with
  | none => rw [hp] at hne; exact absurd rfl hne
  | some pointee =>
    simp only [hp] at hne hu hdest ⊢
    rw [htu.size (hs.types.has_pointee he hp)]
    cases ha : addend g s e.op slot (s.types.size pointee) with
    | other => rw [ha] at hne; exact absurd rfl hne
    | index =>
      simp only [ha] at hdest ⊢
      rcases addend_settled s' (by rw [ha]; exact Addend.noConfusion) with hsame | hother
      · rw [hsame, ha]
        rfl
      · rw [hother]
        simp only [hdest]
        rfl
    | offset units =>
      simp only [ha] at hne hu hdest ⊢
      rcases addend_settled s' (by rw [ha]; exact Addend.noConfusion) with hsame | hother
      · have hcongr := advance_congr (advance g s e (s.temporary e.dest) units).id hne
        rw [hsame, ha, hdest]
        dsimp only
        rw [advance_again hs he htu (by rw [hcongr]; exact hu), hcongr]
      · rw [hother]
        simp only [hdest]
        rfl

private theorem sumEdge_settled (hs : s.Valid) (he : s.types.Has e.type)
    (hat : e.op.at? e.outSlot = some e.dest) (hb : ¬e.betweenInputs = true)
    (hne : (sumEdge g s e).id ≠ s.temporary e.dest)
    (hu : (sumEdge g s e).table.Extends s'.types)
    (hdest : s'.temporary e.dest = (sumEdge g s e).id) :
    sumEdge g s' e = (sumEdge g s e).into s'.types := by
  rw [sumEdge] at hne hu hdest
  rw [sumEdge, sumEdge]
  cases hi : e.inSlot with
  | output => rw [hi] at hne; exact absurd rfl hne
  | input slot =>
    rw [hi] at hne hu hdest
    have hout : e.op.output = some e.dest := by
      cases ho : e.outSlot with
      | output => rw [ho] at hat; exact hat
      | input j => simp [Edge.betweenInputs, hi, ho, Slot.isInput] at hb
    exact sum_settled hs he hout hne hu hdest

/-- An addition that was taken carries the same type again. -/
theorem intAdd_settled (hs : s.Valid) (he : s.types.Has e.type)
    (hat : e.op.at? e.outSlot = some e.dest) {i : Interned} (h : intAdd g s e = some i)
    (hne : i.id ≠ s.temporary e.dest) (hu : i.table.Extends s'.types)
    (hdest : s'.temporary e.dest = i.id) : intAdd g s' e = some (i.into s'.types) := by
  have htu := (gives_intAdd hs he h).grows.extends.trans hu
  rw [intAdd] at h ⊢
  rw [htu.metatype he]
  split at h
  · rename_i hptr
    rw [if_pos hptr]
    split at h
    · cases h
    · rename_i hb
      cases h
      rw [if_neg hb, sumEdge_settled hs he hat hb hne hu hdest]
  · rename_i hptr
    rw [if_neg hptr]
    split at h
    · rename_i hint
      rw [if_pos hint]
      split at h
      · rename_i hconst
        cases h
        rw [if_pos hconst]
        rfl
      · cases h
    · cases h

/-- Pointer arithmetic that was taken carries the same type again. -/
theorem ptrSub_settled (hs : s.Valid) (he : s.types.Has e.type)
    (hat : e.op.at? e.outSlot = some e.dest) {i : Interned} (h : ptrSub g s e = some i)
    (hne : i.id ≠ s.temporary e.dest) (hu : i.table.Extends s'.types)
    (hdest : s'.temporary e.dest = i.id) : ptrSub g s' e = some (i.into s'.types) := by
  have htu := (gives_ptrSub hs he h).grows.extends.trans hu
  rw [ptrSub] at h ⊢
  rw [htu.metatype he]
  split at h
  · cases h
  · rename_i hb
    cases h
    rw [if_neg hb, sumEdge_settled hs he hat (fun hin => hb (Or.inl hin)) hne hu hdest]

/-- Pointer arithmetic with a scale that was taken carries the same type again. -/
theorem ptrAdd_settled (hs : s.Valid) (he : s.types.Has e.type)
    (hat : e.op.at? e.outSlot = some e.dest) {i : Interned} (h : ptrAdd g s e = some i)
    (hne : i.id ≠ s.temporary e.dest) (hu : i.table.Extends s'.types)
    (hdest : s'.temporary e.dest = i.id) : ptrAdd g s' e = some (i.into s'.types) := by
  rw [ptrAdd] at h ⊢
  split at h
  · cases h
  · rename_i hscale
    rw [if_neg hscale]
    exact ptrSub_settled hs he hat h hne hu hdest

/-- An edge carries nothing new once its destination has taken the type it carries. -/
theorem transfer_settled (hs : s.Valid) (he : s.types.Has e.type)
    (hat : e.op.at? e.outSlot = some e.dest) {i : Interned} (h : transfer g s e = some i)
    (hne : i.id ≠ s.temporary e.dest) (hu : i.table.Extends s'.types)
    (hdest : s'.temporary e.dest = i.id) : transfer g s' e = some (i.into s'.types) := by
  have htu := (gives_transfer hs he h).grows.extends.trans hu
  have hsame {r r' : Option Interned} (hr : r = some i)
      (hagain : (∀ j, r = some j → j.table.Extends s'.types) →
        r' = r.map (·.into s'.types)) : r' = some (i.into s'.types) := by
    rw [hagain fun j hj => by rw [hr, Option.some.injEq] at hj; exact hj ▸ hu, hr]
    rfl
  unfold transfer at h ⊢
  split
  all_goals rename_i hop
  all_goals simp only [hop] at h
  · exact hsame h (copy_again he)
  · exact hsame h (copy_again he)
  · exact hsame h (indirect_again he)
  · exact hsame h (comparison_again he)
  · exact hsame h (comparison_again he)
  · exact hsame h (comparison_again he)
  · exact hsame h (comparison_again he)
  · exact hsame h fun _ => signedComparison_again he htu
  · exact hsame h fun _ => signedComparison_again he htu
  · exact load_settled hs he h hne hu hdest
  · exact store_settled hs he h hne hu hdest
  · exact intAdd_settled hs he hat h hne hu hdest
  · exact ptrAdd_settled hs he hat h hne hu hdest
  · exact ptrSub_settled hs he hat h hne hu hdest
  · exact hsame h fun _ => subpiece_again hs he htu
  · cases h

/-! ## Edges whose destination was sharpened -/

/-- The destination of an edge holds a type of the same size as before. -/
def SameSize (s s' : TypeState) (e : Edge) : Prop :=
  s'.types.size (s'.temporary e.dest) = s.types.size (s.temporary e.dest)

/-- What an edge carries in a later state is what it carried before, or the type that its
destination holds, and nothing is interned for it. -/
def CarriesNoMore (s' : TypeState) (e : Edge) (old new : Option Interned) : Prop :=
  new = old.map (·.into s'.types) ∨ new = some ⟨s'.temporary e.dest, s'.types⟩

private theorem fromPointer_sharpened (hs : s.Valid) (he : s.types.Has e.type)
    (hu : s.types.Extends s'.types) (hsize : SameSize s s' e) :
    fromPointer s' e = fromPointer s e ∨ fromPointer s' e = s'.temporary e.dest := by
  rw [fromPointer, fromPointer, hu.pointee? he, hsize]
  cases hp : s.types.pointee? e.type with
  | none => exact Or.inr rfl
  | some pointee =>
    simp only [hu.size (hs.types.has_pointee he hp)]
    split
    · exact Or.inl rfl
    · exact Or.inr rfl

/-- A load carries no more to a value whose type became more specific. -/
theorem load_sharpened (hs : s.Valid) (he : s.types.Has e.type) (hu : s.types.Extends s'.types)
    (hsize : SameSize s s' e) (h : ∀ i, load g s e = some i → i.table.Extends s'.types) :
    CarriesNoMore s' e (load g s e) (load g s' e) := by
  rw [load] at h
  rw [load, load]
  split
  · exact Or.inl rfl
  · rename_i hspace
    rw [if_neg hspace] at h
    split
    · rename_i hout
      rw [if_pos hout] at h
      rw [toPointer_again hs he hsize (h _ rfl)]
      exact Or.inl rfl
    · rcases fromPointer_sharpened hs he hu hsize with hsame | hdest
      · rw [hsame]
        exact Or.inl rfl
      · rw [hdest]
        exact Or.inr rfl

/-- A store carries no more to a value whose type became more specific. -/
theorem store_sharpened (hs : s.Valid) (he : s.types.Has e.type) (hu : s.types.Extends s'.types)
    (hsize : SameSize s s' e) (h : ∀ i, store g s e = some i → i.table.Extends s'.types) :
    CarriesNoMore s' e (store g s e) (store g s' e) := by
  rw [store] at h
  rw [store, store]
  split
  · exact Or.inl rfl
  · rename_i hspace
    rw [if_neg hspace] at h
    split
    · rename_i hvalue
      rw [if_pos hvalue] at h
      rw [toPointer_again hs he hsize (h _ rfl)]
      exact Or.inl rfl
    · split
      · rcases fromPointer_sharpened hs he hu hsize with hsame | hdest
        · rw [hsame]
          exact Or.inl rfl
        · rw [hdest]
          exact Or.inr rfl
      · exact Or.inl rfl

private theorem advance_sharpened (hs : s.Valid) (he : s.types.Has e.type)
    (hu : s.types.Extends s'.types) {units : UInt64}
    (h : (advance g s e (s.temporary e.dest) units).table.Extends s'.types) :
    CarriesNoMore s' e (some (advance g s e (s.temporary e.dest) units))
      (some (advance g s' e (s'.temporary e.dest) units)) := by
  have hagain := advance_again hs he hu h
  by_cases hresult : (advance g s' e (s'.temporary e.dest) units).id = s'.temporary e.dest
  · have htable : (advance g s' e (s'.temporary e.dest) units).table = s'.types := by
      rw [table_advance _ (s.temporary e.dest), hagain]
      rfl
    exact Or.inr (congrArg some (Interned.ext hresult htable))
  · rw [← advance_congr (s.temporary e.dest) hresult, hagain]
    exact Or.inl rfl

/-- The operand that an addition adds to the one at a slot. -/
def otherOperand? (op : Op) : Slot → Option VarnodeId
  | .input slot => op.input? (if slot = 0 then 1 else 0)
  | .output => none

/-- If an addition did not look like pointer arithmetic because it adds a constant that is a
pointer, the constant still is one. -/
def KeepsAddend (g : Graph) (s s' : TypeState) (e : Edge) : Prop :=
  e.op.opcode = .intAdd → e.outSlot = .output → ∀ k, otherOperand? e.op e.inSlot = some k →
    (g.varnode k).constant = true → s.types.metatype (s.temporary k) = .ptr →
      s'.types.metatype (s'.temporary k) = .ptr

/-- What an addition adds stays the same, or the addition no longer looks like pointer
arithmetic. -/
theorem addend_sharpened (hkeeps : KeepsAddend g s s' e) (hout : e.outSlot = .output) {slot : Nat}
    (hin : e.inSlot = .input slot) (size : Nat) :
    addend g s' e.op slot size = addend g s e.op slot size ∨
      addend g s' e.op slot size = .other := by
  unfold addend
  split
  · exact Or.inl rfl
  · exact Or.inl rfl
  · rename_i hop
    rw [plainAddend, plainAddend]
    cases hk : e.op.input? (if slot = 0 then 1 else 0) with
    | none => exact Or.inl rfl
    | some k =>
      dsimp only
      split
      · rename_i hconstant
        by_cases hptr : s'.types.metatype (s'.temporary k) = .ptr
        · exact Or.inr (if_pos hptr)
        · have hother : otherOperand? e.op e.inSlot = some k := by rw [hin]; exact hk
          have hold : ¬s.types.metatype (s.temporary k) = .ptr :=
            fun hold => hptr (hkeeps hop hout k hother hconstant hold)
          rw [if_neg hptr, if_neg hold]
          exact Or.inl rfl
      · exact Or.inl rfl
  · exact Or.inl rfl

private theorem sum_sharpened (hs : s.Valid) (he : s.types.Has e.type)
    (hu : s.types.Extends s'.types) (hkeeps : KeepsAddend g s s' e) (hout : e.outSlot = .output)
    {slot : Nat} (hin : e.inSlot = .input slot) (hdest : e.op.output = some e.dest)
    (h : (sum g s e slot).table.Extends s'.types) :
    CarriesNoMore s' e (some (sum g s e slot)) (some (sum g s' e slot)) := by
  unfold sum at h ⊢
  simp only [hdest, Option.map_some, Option.getD_some, hu.pointee? he] at h ⊢
  cases hp : s.types.pointee? e.type with
  | none => exact Or.inr rfl
  | some pointee =>
    simp only [hp] at h ⊢
    rw [hu.size (hs.types.has_pointee he hp)]
    rcases addend_sharpened hkeeps hout hin (s.types.size pointee) with hsame | hother
    · rw [hsame]
      cases ha : addend g s e.op slot (s.types.size pointee) with
      | other => exact Or.inr rfl
      | index => exact Or.inl rfl
      | offset units =>
        simp only [ha] at h ⊢
        exact advance_sharpened hs he hu h
    · rw [hother]
      exact Or.inr rfl

private theorem sumEdge_sharpened (hs : s.Valid) (he : s.types.Has e.type)
    (hu : s.types.Extends s'.types) (hkeeps : KeepsAddend g s s' e)
    (hat : e.op.at? e.outSlot = some e.dest) (hb : ¬e.betweenInputs = true)
    (h : (sumEdge g s e).table.Extends s'.types) :
    CarriesNoMore s' e (some (sumEdge g s e)) (some (sumEdge g s' e)) := by
  rw [sumEdge] at h
  rw [sumEdge, sumEdge]
  cases hi : e.inSlot with
  | output => exact Or.inr rfl
  | input slot =>
    rw [hi] at h
    cases ho : e.outSlot with
    | input j => simp [Edge.betweenInputs, hi, ho, Slot.isInput] at hb
    | output =>
      rw [ho] at hat
      exact sum_sharpened hs he hu hkeeps ho hi hat h

/-- An addition carries no more to a value whose type became more specific. -/
theorem intAdd_sharpened (hs : s.Valid) (he : s.types.Has e.type) (hu : s.types.Extends s'.types)
    (hkeeps : KeepsAddend g s s' e) (hat : e.op.at? e.outSlot = some e.dest)
    (h : ∀ i, intAdd g s e = some i → i.table.Extends s'.types) :
    CarriesNoMore s' e (intAdd g s e) (intAdd g s' e) := by
  rw [intAdd] at h
  rw [intAdd, intAdd, hu.metatype he]
  split
  · rename_i hptr
    rw [if_pos hptr] at h
    split
    · exact Or.inl rfl
    · rename_i hb
      rw [if_neg hb] at h
      exact sumEdge_sharpened hs he hu hkeeps hat hb (h _ rfl)
  · split
    · split
      · exact Or.inl rfl
      · exact Or.inl rfl
    · exact Or.inl rfl

/-- Pointer arithmetic carries no more to a value whose type became more specific. -/
theorem ptrSub_sharpened (hs : s.Valid) (he : s.types.Has e.type) (hu : s.types.Extends s'.types)
    (hkeeps : KeepsAddend g s s' e) (hat : e.op.at? e.outSlot = some e.dest)
    (h : ∀ i, ptrSub g s e = some i → i.table.Extends s'.types) :
    CarriesNoMore s' e (ptrSub g s e) (ptrSub g s' e) := by
  rw [ptrSub] at h
  rw [ptrSub, ptrSub, hu.metatype he]
  split
  · exact Or.inl rfl
  · rename_i hb
    rw [if_neg hb] at h
    exact sumEdge_sharpened hs he hu hkeeps hat (fun hin => hb (Or.inl hin)) (h _ rfl)

/-- An edge carries nothing new when its destination gets another type, of the same size if the op
is a load or a store. -/
theorem transfer_sharpened (hs : s.Valid) (he : s.types.Has e.type) (hu : s.types.Extends s'.types)
    (hsize : e.op.opcode = .load ∨ e.op.opcode = .store → SameSize s s' e)
    (hkeeps : KeepsAddend g s s' e)
    (hat : e.op.at? e.outSlot = some e.dest)
    (h : ∀ i, transfer g s e = some i → i.table.Extends s'.types) :
    CarriesNoMore s' e (transfer g s e) (transfer g s' e) := by
  unfold transfer at h ⊢
  split
  all_goals rename_i hop
  all_goals simp only [hop] at h
  · exact Or.inl (copy_again he h)
  · exact Or.inl (copy_again he h)
  · exact Or.inl (indirect_again he h)
  · exact Or.inl (comparison_again he h)
  · exact Or.inl (comparison_again he h)
  · exact Or.inl (comparison_again he h)
  · exact Or.inl (comparison_again he h)
  · exact Or.inl (signedComparison_again he hu)
  · exact Or.inl (signedComparison_again he hu)
  · exact load_sharpened hs he hu (hsize (Or.inl hop)) h
  · exact store_sharpened hs he hu (hsize (Or.inr hop)) h
  · exact intAdd_sharpened hs he hu hkeeps hat h
  · rw [ptrAdd] at h
    rw [ptrAdd, ptrAdd]
    split
    · exact Or.inl rfl
    · rename_i hscale
      rw [if_neg hscale] at h
      exact ptrSub_sharpened hs he hu hkeeps hat h
  · exact ptrSub_sharpened hs he hu hkeeps hat h
  · exact Or.inl (subpiece_again hs he hu)
  · exact Or.inl rfl

end Transfer

end TypeRecovery
