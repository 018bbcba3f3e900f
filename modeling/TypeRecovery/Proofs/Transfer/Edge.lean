import TypeRecovery.Transfer.Edge
import TypeRecovery.Proofs.Routine

/-!
# Transfer along an edge in later states

What an edge carries depends on the types at the two slots, on the temporary types of the values of
its op, and on the graph. So an edge carries the same type again in every later state that holds
the same temporary types for the values of the op.
-/

namespace TypeRecovery

/-- A value is an operand or the result of an op. -/
def Op.Touches (op : Op) (v : Nat) : Prop := v ∈ op.inputs ∨ op.output = some v

/-- The values at the slots of an op are the ones it touches. -/
theorem Op.touches_of_at? {op : Op} {slot : Slot} {v : Nat} (h : op.at? slot = some v) :
    op.Touches v := by
  cases slot with
  | output => exact Or.inr h
  | input i => exact Or.inl (Graph.mem_inputs_of_input? h)

/-- Two states hold the same temporary types for the values of an op. -/
def TypeState.AgreesOn (s s' : TypeState) (op : Op) : Prop :=
  ∀ v, op.Touches v → s'.temporary v = s.temporary v

namespace Transfer

open TypeTable

variable {g : Graph} {e : Edge}

section Tables

variable {t u : TypeTable}

/-- A pointer to unknown bytes is the pointer to a single one. -/
theorem bytePointer_eq (g : Graph) (t : TypeTable) (like : TypeId) :
    bytePointer g t like = t.blurredPointer (t.size like) 1 g.spaces.dataWordSize := rfl

private theorem gives_passThrough (he : t.Has e.type) : t.Gives (passThrough g t e) := by
  rw [passThrough]
  split
  · exact t.gives_blurredPointer _ _ _
  · exact gives_self he

private theorem passThrough_again (he : t.Has e.type) (h : (passThrough g t e).table.Extends u) :
    passThrough g u e = (passThrough g t e).into u := by
  have htu := (gives_passThrough he).grows.extends.trans h
  rw [passThrough] at h
  rw [passThrough, passThrough]
  split
  · rename_i hbase
    rw [if_pos hbase, bytePointer_eq] at h
    rw [bytePointer_eq, bytePointer_eq, htu.size he]
    exact blurredPointer_again h
  · rfl

private theorem gives_copy (he : t.Has e.type) {i : Interned}
    (h : copy g t e = some i) : t.Gives i := by
  rw [copy] at h
  split at h
  · cases h
  · cases h
    exact gives_passThrough he

/-- A copy carries the same type in a later table. -/
theorem copy_again (he : t.Has e.type) (h : ∀ i, copy g t e = some i → i.table.Extends u) :
    copy g u e = (copy g t e).map (·.into u) := by
  rw [copy] at h
  rw [copy, copy]
  split
  · rfl
  · rename_i hb
    rw [if_neg hb] at h
    rw [passThrough_again he (h _ rfl)]
    rfl

private theorem gives_indirect (he : t.Has e.type) {i : Interned} (h : indirect g t e = some i) :
    t.Gives i := by
  rw [indirect] at h
  split at h
  · cases h
  · exact gives_copy he h

/-- An indirect effect carries the same type in a later table. -/
theorem indirect_again (he : t.Has e.type)
    (h : ∀ i, indirect g t e = some i → i.table.Extends u) :
    indirect g u e = (indirect g t e).map (·.into u) := by
  rw [indirect] at h
  rw [indirect, indirect]
  split
  · rfl
  · rename_i hc
    rw [if_neg hc] at h
    exact copy_again he h

private theorem gives_comparison (he : t.Has e.type) {i : Interned}
    (h : comparison g t e = some i) : t.Gives i := by
  rw [comparison] at h
  split at h
  · cases h
    exact gives_passThrough he
  · cases h

/-- A comparison carries the same type in a later table. -/
theorem comparison_again (he : t.Has e.type)
    (h : ∀ i, comparison g t e = some i → i.table.Extends u) :
    comparison g u e = (comparison g t e).map (·.into u) := by
  rw [comparison] at h
  rw [comparison, comparison]
  split
  · rename_i hb
    rw [if_pos hb] at h
    rw [passThrough_again he (h _ rfl)]
    rfl
  · rfl

private theorem gives_signedComparison (he : t.Has e.type) {i : Interned}
    (h : signedComparison t e = some i) : t.Gives i := by
  rw [signedComparison] at h
  split at h
  · cases h
    exact gives_self he
  · cases h

/-- A signed comparison carries the same type in a later table. -/
theorem signedComparison_again (he : t.Has e.type) (hu : t.Extends u) :
    signedComparison u e = (signedComparison t e).map (·.into u) := by
  rw [signedComparison, signedComparison, hu.metatype he]
  split <;> rfl

end Tables

section States

variable {s s' : TypeState}

/-! ## Loads and stores -/

private theorem gives_toPointer (he : s.types.Has e.type) : s.types.Gives (toPointer g s e) :=
  gives_pointerNoDepth _ _ he

/-- A pointer to a type is found again in a later state, if the address keeps the size of its type.
-/
theorem toPointer_again (hs : s.Valid) (he : s.types.Has e.type)
    (hsize : s'.types.size (s'.temporary e.dest) = s.types.size (s.temporary e.dest))
    (h : (toPointer g s e).table.Extends s'.types) :
    toPointer g s' e = (toPointer g s e).into s'.types := by
  rw [toPointer, hsize]
  exact pointerNoDepth_again hs.types he h

private theorem has_fromPointer (hs : s.Valid) (he : s.types.Has e.type) :
    s.types.Has (fromPointer s e) := by
  rw [fromPointer]
  cases hp : s.types.pointee? e.type with
  | none => exact hs.temporary _
  | some pointee =>
    dsimp only
    split
    · exact hs.types.has_pointee he hp
    · exact hs.temporary _

private theorem fromPointer_again (hs : s.Valid) (he : s.types.Has e.type)
    (hd : s'.temporary e.dest = s.temporary e.dest) (hu : s.types.Extends s'.types) :
    fromPointer s' e = fromPointer s e := by
  rw [fromPointer, fromPointer, hu.pointee? he, hd, hu.size (hs.temporary e.dest)]
  cases hp : s.types.pointee? e.type with
  | none => rfl
  | some pointee => simp only [hu.size (hs.types.has_pointee he hp)]

private theorem gives_load (hs : s.Valid) (he : s.types.Has e.type) {i : Interned}
    (h : load g s e = some i) : s.types.Gives i := by
  rw [load] at h
  split at h
  · cases h
  · split at h
    · cases h
      exact gives_toPointer he
    · cases h
      exact gives_self (has_fromPointer hs he)

private theorem load_again (hs : s.Valid) (he : s.types.Has e.type)
    (hd : s'.temporary e.dest = s.temporary e.dest) (hu : s.types.Extends s'.types)
    (h : ∀ i, load g s e = some i → i.table.Extends s'.types) :
    load g s' e = (load g s e).map (·.into s'.types) := by
  rw [load] at h
  rw [load, load]
  split
  · rfl
  · rename_i hspace
    rw [if_neg hspace] at h
    split
    · rename_i hout
      rw [if_pos hout] at h
      rw [toPointer_again hs he (by rw [hd, hu.size (hs.temporary e.dest)]) (h _ rfl)]
      rfl
    · rw [fromPointer_again hs he hd hu]
      rfl

private theorem gives_store (hs : s.Valid) (he : s.types.Has e.type) {i : Interned}
    (h : store g s e = some i) : s.types.Gives i := by
  rw [store] at h
  split at h
  · cases h
  · split at h
    · cases h
      exact gives_toPointer he
    · split at h
      · cases h
        exact gives_self (has_fromPointer hs he)
      · cases h

private theorem store_again (hs : s.Valid) (he : s.types.Has e.type)
    (hd : s'.temporary e.dest = s.temporary e.dest) (hu : s.types.Extends s'.types)
    (h : ∀ i, store g s e = some i → i.table.Extends s'.types) :
    store g s' e = (store g s e).map (·.into s'.types) := by
  rw [store] at h
  rw [store, store]
  split
  · rfl
  · rename_i hspace
    rw [if_neg hspace] at h
    split
    · rename_i hvalue
      rw [if_pos hvalue] at h
      rw [toPointer_again hs he (by rw [hd, hu.size (hs.temporary e.dest)]) (h _ rfl)]
      rfl
    · split
      · rw [fromPointer_again hs he hd hu]
        rfl
      · rfl

/-! ## Pointer arithmetic -/

/-- What an op adds to a pointer depends only on the graph and on the types of its operands. -/
theorem addend_again (hs : s.Valid) {op : Op} (hagree : s.AgreesOn s' op)
    (hu : s.types.Extends s'.types) (slot size : Nat) :
    addend g s' op slot size = addend g s op slot size := by
  unfold addend
  split
  · rfl
  · rfl
  · rw [plainAddend, plainAddend]
    cases hv : op.input? (if slot = 0 then 1 else 0) with
    | none => rfl
    | some v =>
      have htouch : op.Touches v := Or.inl (Graph.mem_inputs_of_input? hv)
      simp only [hagree v htouch, hu.metatype (hs.temporary v)]
  · rfl

private theorem gives_advance (hs : s.Valid) (he : s.types.Has e.type) {result : Nat}
    (hr : s.types.Has result) (units : UInt64) : s.types.Gives (advance g s e result units) := by
  rw [advance]
  generalize (units * UInt64.ofNat (s.types.wordSize e.type)).toNat = bytes
  obtain ⟨hgrows, hhas⟩ := grows_descend hs.types he (e.op.opcode ≠ .ptrSub) bytes
  generalize hl : s.types.descend (e.op.opcode ≠ .ptrSub) e.type bytes = landing at hgrows hhas
  dsimp only
  cases hp : landing.pointer with
  | none =>
    refine ⟨hgrows, ?_⟩
    dsimp only
    split
    · exact hgrows.extends.has he
    · exact hgrows.extends.has hr
  | some ptr =>
    dsimp only
    split
    · have hbyte := landing.table.gives_atom 1 .unknown
      exact ⟨hgrows.trans (hbyte.trans (gives_pointerSized _ _ hbyte.has)).grows,
        (gives_pointerSized _ _ hbyte.has).has⟩
    · exact ⟨hgrows, hhas ptr hp⟩

/-- Advancing a pointer gives the same type in a later state. -/
theorem advance_again (hs : s.Valid) (he : s.types.Has e.type) {result : Nat} {units : UInt64}
    (hu : s.types.Extends s'.types) (h : (advance g s e result units).table.Extends s'.types) :
    advance g s' e result units = (advance g s e result units).into s'.types := by
  rw [advance] at h
  rw [advance, advance, hu.wordSize he]
  generalize (units * UInt64.ofNat (s.types.wordSize e.type)).toNat = bytes at h ⊢
  obtain ⟨hgrows, hhas⟩ := grows_descend hs.types he (e.op.opcode ≠ .ptrSub) bytes
  have hagain := descend_again (u := s'.types) hs.types he (e.op.opcode ≠ .ptrSub) bytes
  generalize hl : s.types.descend (e.op.opcode ≠ .ptrSub) e.type bytes = landing
    at h hgrows hhas hagain ⊢
  dsimp only at h ⊢
  cases hp : landing.pointer with
  | none =>
    rw [hp] at h
    rw [hagain h]
    simp only [Landing.into, hp]
    rfl
  | some ptr =>
    have hptr := hhas ptr hp
    simp only [hp] at h
    by_cases hbase : (g.varnode e.source).spaceBase = true ∧
        landing.table.isSpacebasePointer ptr = true
    · rw [if_pos hbase] at h
      have hland : landing.table.Extends s'.types :=
        (landing.table.gives_blurredPointer (landing.table.size ptr) 1
          (landing.table.wordSize ptr)).grows.extends.trans h
      have hwf := hgrows.wellFormed hs.types
      rw [hagain hland]
      simp only [Landing.into, hp, hland.isSpacebasePointer hwf hptr, hland.size hptr,
        hland.wordSize hptr, if_pos hbase]
      exact blurredPointer_again h
    · rw [if_neg hbase] at h
      have hwf := hgrows.wellFormed hs.types
      rw [hagain h]
      simp only [Landing.into, hp, TypeTable.Extends.isSpacebasePointer h hwf hptr, if_neg hbase]
      rfl

/-- A sum that gives something other than what stands in for no answer does not depend on it. -/
theorem advance_congr {result : Nat} (result' : Nat) {units : UInt64}
    (h : (advance g s e result units).id ≠ result) :
    advance g s e result' units = advance g s e result units := by
  rw [advance] at h
  rw [advance, advance]
  generalize s.types.descend (e.op.opcode ≠ .ptrSub) e.type
    (units * UInt64.ofNat (s.types.wordSize e.type)).toNat = landing at h ⊢
  dsimp only at h ⊢
  cases hp : landing.pointer with
  | some ptr => rfl
  | none =>
    rw [hp] at h
    dsimp only at h ⊢
    by_cases hz : units = 0
    · simp only [if_pos hz]
    · rw [if_neg hz] at h
      exact absurd rfl h

/-- The types that are interned on the way do not depend on the type of the result. -/
theorem table_advance (result result' : Nat) (units : UInt64) :
    (advance g s e result units).table = (advance g s e result' units).table := by
  rw [advance, advance]
  generalize s.types.descend (e.op.opcode ≠ .ptrSub) e.type
    (units * UInt64.ofNat (s.types.wordSize e.type)).toNat = landing
  dsimp only
  cases landing.pointer <;> rfl

/-- The temporary type of the result of an op, or the type of the edge for an op without result. -/
theorem has_result (hs : s.Valid) (he : s.types.Has e.type) :
    s.types.Has ((e.op.output.map s.temporary).getD e.type) := by
  cases e.op.output with
  | none => exact he
  | some out => exact hs.temporary out

/-- The type of a sum exists. -/
theorem gives_sum (hs : s.Valid) (he : s.types.Has e.type) (slot : Nat) :
    s.types.Gives (sum g s e slot) := by
  have hr := has_result hs he
  unfold sum
  generalize (e.op.output.map s.temporary).getD e.type = result at hr ⊢
  dsimp only
  cases s.types.pointee? e.type with
  | none => exact gives_self hr
  | some pointee =>
    dsimp only
    cases addend g s e.op slot (s.types.size pointee) with
    | other => exact gives_self hr
    | index => exact gives_self he
    | offset units => exact gives_advance hs he hr units

private theorem sum_again (hs : s.Valid) (he : s.types.Has e.type) {slot : Nat}
    (hagree : s.AgreesOn s' e.op) (hu : s.types.Extends s'.types)
    (h : (sum g s e slot).table.Extends s'.types) :
    sum g s' e slot = (sum g s e slot).into s'.types := by
  have hresult : (e.op.output.map s'.temporary).getD e.type =
      (e.op.output.map s.temporary).getD e.type := by
    cases ho : e.op.output with
    | none => rfl
    | some out => exact hagree out (Or.inr ho)
  unfold sum at h ⊢
  rw [hresult, hu.pointee? he]
  dsimp only at h ⊢
  cases hp : s.types.pointee? e.type with
  | none => rfl
  | some pointee =>
    rw [hp] at h
    dsimp only at h ⊢
    rw [hu.size (hs.types.has_pointee he hp), addend_again hs hagree hu]
    cases ha : addend g s e.op slot (s.types.size pointee) with
    | other => rfl
    | index => rfl
    | offset units =>
      rw [ha] at h
      exact advance_again hs he hu h

private theorem gives_sumEdge (hs : s.Valid) (he : s.types.Has e.type) :
    s.types.Gives (sumEdge g s e) := by
  rw [sumEdge]
  split
  · exact gives_self (hs.temporary _)
  · exact gives_sum hs he _

private theorem sumEdge_again (hs : s.Valid) (he : s.types.Has e.type) (hd : e.op.Touches e.dest)
    (hagree : s.AgreesOn s' e.op) (hu : s.types.Extends s'.types)
    (h : (sumEdge g s e).table.Extends s'.types) :
    sumEdge g s' e = (sumEdge g s e).into s'.types := by
  rw [sumEdge] at h
  rw [sumEdge, sumEdge]
  cases hi : e.inSlot with
  | output => rw [hagree e.dest hd]; rfl
  | input slot =>
    rw [hi] at h
    exact sum_again hs he hagree hu h

/-- The type that an addition carries exists. -/
theorem gives_intAdd (hs : s.Valid) (he : s.types.Has e.type) {i : Interned}
    (h : intAdd g s e = some i) : s.types.Gives i := by
  rw [intAdd] at h
  split at h
  · split at h
    · cases h
    · cases h
      exact gives_sumEdge hs he
  · split at h
    · split at h
      · cases h
        exact gives_self he
      · cases h
    · cases h

private theorem intAdd_again (hs : s.Valid) (he : s.types.Has e.type) (hd : e.op.Touches e.dest)
    (hagree : s.AgreesOn s' e.op) (hu : s.types.Extends s'.types)
    (h : ∀ i, intAdd g s e = some i → i.table.Extends s'.types) :
    intAdd g s' e = (intAdd g s e).map (·.into s'.types) := by
  rw [intAdd] at h
  rw [intAdd, intAdd, hu.metatype he]
  split
  · rename_i hptr
    rw [if_pos hptr] at h
    split
    · rfl
    · rename_i hb
      rw [if_neg hb] at h
      rw [sumEdge_again hs he hd hagree hu (h _ rfl)]
      rfl
  · split
    · split <;> rfl
    · rfl

/-- The type that pointer arithmetic carries exists. -/
theorem gives_ptrSub (hs : s.Valid) (he : s.types.Has e.type) {i : Interned}
    (h : ptrSub g s e = some i) : s.types.Gives i := by
  rw [ptrSub] at h
  split at h
  · cases h
  · cases h
    exact gives_sumEdge hs he

private theorem ptrSub_again (hs : s.Valid) (he : s.types.Has e.type) (hd : e.op.Touches e.dest)
    (hagree : s.AgreesOn s' e.op) (hu : s.types.Extends s'.types)
    (h : ∀ i, ptrSub g s e = some i → i.table.Extends s'.types) :
    ptrSub g s' e = (ptrSub g s e).map (·.into s'.types) := by
  rw [ptrSub] at h
  rw [ptrSub, ptrSub, hu.metatype he]
  split
  · rfl
  · rename_i hb
    rw [if_neg hb] at h
    rw [sumEdge_again hs he hd hagree hu (h _ rfl)]
    rfl

/-! ## All opcodes -/

private theorem gives_ptrAdd (hs : s.Valid) (he : s.types.Has e.type) {i : Interned}
    (h : ptrAdd g s e = some i) : s.types.Gives i := by
  rw [ptrAdd] at h
  split at h
  · cases h
  · exact gives_ptrSub hs he h

private theorem ptrAdd_again (hs : s.Valid) (he : s.types.Has e.type) (hd : e.op.Touches e.dest)
    (hagree : s.AgreesOn s' e.op) (hu : s.types.Extends s'.types)
    (h : ∀ i, ptrAdd g s e = some i → i.table.Extends s'.types) :
    ptrAdd g s' e = (ptrAdd g s e).map (·.into s'.types) := by
  rw [ptrAdd] at h
  rw [ptrAdd, ptrAdd]
  split
  · rfl
  · rename_i hc
    rw [if_neg hc] at h
    exact ptrSub_again hs he hd hagree hu h

private theorem gives_subpiece (hs : s.Valid) (he : s.types.Has e.type) {i : Interned}
    (h : subpiece g s e = some i) : s.types.Gives i := by
  rw [subpiece] at h
  split at h
  · cases ho : truncationOffset? g e with
    | none => rw [ho] at h; cases h
    | some offset =>
      simp only [ho, Option.map_eq_some_iff] at h
      obtain ⟨piece, hpiece, rfl⟩ := h
      exact gives_self (hs.types.has_exactPiece he hpiece)
  · cases h

/-- A truncation carries the same type in a later state. -/
theorem subpiece_again (hs : s.Valid) (he : s.types.Has e.type) (hu : s.types.Extends s'.types) :
    subpiece g s' e = (subpiece g s e).map (·.into s'.types) := by
  rw [subpiece, subpiece, hu.metatype he]
  split
  · cases ho : truncationOffset? g e with
    | none => rfl
    | some offset =>
      simp only [hu.exactPiece hs.types he, Option.map_map]
      rfl
  · rfl

/-- What an edge carries is a type of the table, which grew by atoms and pointers. -/
theorem gives_transfer (hs : s.Valid) (he : s.types.Has e.type) {i : Interned}
    (h : transfer g s e = some i) : s.types.Gives i := by
  unfold transfer at h
  split at h
  · exact gives_copy he h
  · exact gives_copy he h
  · exact gives_indirect he h
  · exact gives_comparison he h
  · exact gives_comparison he h
  · exact gives_comparison he h
  · exact gives_comparison he h
  · exact gives_signedComparison he h
  · exact gives_signedComparison he h
  · exact gives_load hs he h
  · exact gives_store hs he h
  · exact gives_intAdd hs he h
  · exact gives_ptrAdd hs he h
  · exact gives_ptrSub hs he h
  · exact gives_subpiece hs he h
  · cases h

/-- An edge carries the same type again in every later state with the same types for the values of
its op. -/
theorem transfer_again (hs : s.Valid) (he : s.types.Has e.type) (hd : e.op.Touches e.dest)
    (hagree : s.AgreesOn s' e.op) (hu : s.types.Extends s'.types)
    (h : ∀ i, transfer g s e = some i → i.table.Extends s'.types) :
    transfer g s' e = (transfer g s e).map (·.into s'.types) := by
  have hdest := hagree e.dest hd
  unfold transfer at h ⊢
  split
  all_goals rename_i hop
  all_goals simp only [hop] at h
  · exact copy_again he h
  · exact copy_again he h
  · exact indirect_again he h
  · exact comparison_again he h
  · exact comparison_again he h
  · exact comparison_again he h
  · exact comparison_again he h
  · exact signedComparison_again he hu
  · exact signedComparison_again he hu
  · exact load_again hs he hdest hu h
  · exact store_again hs he hdest hu h
  · exact intAdd_again hs he hd hagree hu h
  · exact ptrAdd_again hs he hd hagree hu h
  · exact ptrSub_again hs he hd hagree hu h
  · exact subpiece_again hs he hu
  · rfl

end States

end Transfer

end TypeRecovery
