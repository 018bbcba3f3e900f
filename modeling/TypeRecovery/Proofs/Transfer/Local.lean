import TypeRecovery.Transfer.Local
import TypeRecovery.Proofs.Transfer.Edge

/-!
# First guesses in later states

The first guess at the type of a value depends on the graph and on few committed types: those of
locked values, and those of the values around pointer steps. So a later state with the same
committed types there makes the same guesses, and interns nothing for them.
-/

namespace TypeRecovery

namespace Transfer

open TypeTable

variable {g : Graph} {t u : TypeTable} {s s' : TypeState}

/-- Two states hold the same committed types wherever guesses depend on them. -/
structure SameFixed (g : Graph) (s s' : TypeState) : Prop where
  /-- The same values are locked. -/
  locked : ∀ v, s'.locked v = s.locked v
  /-- Locked values have the same committed type. -/
  fixed : ∀ v, s.locked v = true → s'.committed v = s.committed v
  /-- The values of pointer steps have the same committed type. -/
  stepped : ∀ o v, (g.op o).opcode.isPointerStep = true → (g.op o).Touches v →
    s'.committed v = s.committed v

/-- What is fixed does not depend on the tables. -/
theorem SameFixed.withTypes (h : SameFixed g s s') (t u : TypeTable) :
    SameFixed g (s.withTypes t) (s'.withTypes u) :=
  ⟨h.locked, h.fixed, h.stepped⟩

/-! ## What one op implies -/

/-- The type of a returned value exists. -/
theorem gives_returnedType (hg : g.TypesIn t) (size : Nat) :
    t.Gives (returnedType g t size) := by
  rw [returnedType]
  cases hp : g.prototype.outputType with
  | none => exact t.gives_atom _ _
  | some id =>
    dsimp only
    split
    · exact gives_self (hg.prototype id hp)
    · exact t.gives_atom _ _

/-- The type of a returned value is found again. -/
theorem returnedType_again (hg : g.TypesIn t) {size : Nat}
    (h : (returnedType g t size).table.Extends u) :
    returnedType g u size = (returnedType g t size).into u := by
  have htu := (gives_returnedType hg size).grows.extends.trans h
  rw [returnedType] at h
  rw [returnedType, returnedType]
  cases hp : g.prototype.outputType with
  | none =>
    rw [hp] at h
    exact atom_again h
  | some id =>
    simp only [hp] at h
    simp only [htu.metatype (hg.prototype id hp), htu.size (hg.prototype id hp)]
    split
    · rfl
    · rename_i hmatch
      rw [if_neg hmatch] at h
      exact atom_again h

/-- What an op says of an operand is a type that exists. -/
theorem gives_localInput (hs : s.Valid) (hg : g.TypesIn s.types) (op : Op) (index : Nat) :
    s.types.Gives (localInput g s op index) := by
  rw [localInput]
  cases op.input? index with
  | none => exact s.types.gives_atom _ _
  | some v =>
    dsimp only
    split
    · exact gives_self (hs.committed v)
    · split
      · exact s.types.gives_atom _ _
      · split
        · exact gives_returnedType hg _
        · split
          · exact s.types.gives_atom _ _
          · exact s.types.gives_atom _ _

/-- What an op says of an operand is found again. -/
theorem localInput_again (hg : g.TypesIn s.types) (hsame : SameFixed g s s') (o index : Nat)
    (h : (localInput g s (g.op o) index).table.Extends s'.types) :
    localInput g s' (g.op o) index = (localInput g s (g.op o) index).into s'.types := by
  rw [localInput] at h
  rw [localInput, localInput]
  cases hv : (g.op o).input? index with
  | none =>
    rw [hv] at h
    exact atom_again h
  | some v =>
    simp only [hv] at h ⊢
    split
    · rename_i hstep
      have htouch : (g.op o).Touches v := Or.inl (Graph.mem_inputs_of_input? hv)
      rw [hsame.stepped o v hstep.1 htouch]
      rfl
    · rename_i hstep
      rw [if_neg hstep] at h
      split
      · rename_i hsub
        rw [if_pos hsub] at h
        exact atom_again h
      · rename_i hsub
        rw [if_neg hsub] at h
        split
        · rename_i hret
          rw [if_pos hret] at h
          exact returnedType_again hg h
        · rename_i hret
          rw [if_neg hret] at h
          split
          · rename_i hshift
            rw [if_pos hshift] at h
            exact atom_again h
          · rename_i hshift
            rw [if_neg hshift] at h
            exact atom_again h

/-- What an op says of its result is a type that exists. -/
theorem gives_localOutput (hs : s.Valid) (op : Op) : s.types.Gives (localOutput g s op) := by
  rw [localOutput]
  cases op.output with
  | none => exact s.types.gives_void
  | some v =>
    dsimp only
    split
    · exact gives_self (hs.committed v)
    · exact s.types.gives_atom _ _

/-- What an op says of its result is found again. -/
theorem localOutput_again (hsame : SameFixed g s s') {o : Nat}
    (h : (localOutput g s (g.op o)).table.Extends s'.types) :
    localOutput g s' (g.op o) = (localOutput g s (g.op o)).into s'.types := by
  rw [localOutput] at h
  rw [localOutput, localOutput]
  cases hv : (g.op o).output with
  | none =>
    rw [hv] at h
    exact void_again h
  | some v =>
    simp only [hv] at h ⊢
    split
    · rename_i hstep
      rw [hsame.stepped o v hstep (Or.inr hv)]
      rfl
    · rename_i hstep
      rw [if_neg hstep] at h
      exact atom_again h

/-! ## What all ops around a value imply -/

/-- A candidate so far, if there is one, is a type of the table that goes with it. -/
def HoldsCandidate (best : Option TypeId × TypeTable) : Prop := ∀ id ∈ best.1, best.2.Has id

/-- A table that the table of a valid state grew into serves the state as well. -/
theorem valid_withTypes_of_grows (hs : s.Valid) (hgrows : s.types.Grows t) :
    (s.withTypes t).Valid :=
  hs.withTypes hgrows.extends (hgrows.wellFormed hs.types)

private theorem has_moreSpecificOf {a b : Nat} (ha : t.Has a) (hb : t.Has b) :
    t.Has (t.moreSpecificOf a b) := by
  rw [moreSpecificOf]
  split
  · exact hb
  · exact ha

/-- A reader adds types, and the best type so far exists. -/
theorem refineByReader_grows (hs : s.Valid) (hg : g.TypesIn s.types)
    {best : Option TypeId × TypeTable} (hgrows : s.types.Grows best.2)
    (hbest : HoldsCandidate best) (v reader : Nat) :
    best.2.Grows (refineByReader g s v best reader).2 ∧
      HoldsCandidate (refineByReader g s v best reader) := by
  have hgives := gives_localInput (g := g) (valid_withTypes_of_grows hs hgrows)
    (hg.mono hgrows.extends) (g.op reader)
  rw [refineByReader]
  cases (g.op reader).slotOf? v with
  | none => exact ⟨.refl, hbest⟩
  | some index =>
    have hhint := hgives index
    dsimp only
    cases hb : best.1 with
    | none =>
      refine ⟨hhint.grows, fun id hid => ?_⟩
      cases hid
      exact hhint.has
    | some current =>
      refine ⟨hhint.grows, fun id hid => ?_⟩
      cases hid
      exact has_moreSpecificOf (hhint.grows.extends.has (hbest current hb)) hhint.has

private theorem refineByReader_again (hs : s.Valid) (hg : g.TypesIn s.types)
    (hsame : SameFixed g s s') {best : Option TypeId × TypeTable} (hgrows : s.types.Grows best.2)
    (hbest : HoldsCandidate best) {v reader : Nat}
    (h : (refineByReader g s v best reader).2.Extends u) :
    refineByReader g s' v (best.1, u) reader = ((refineByReader g s v best reader).1, u) := by
  have hvalid := valid_withTypes_of_grows hs hgrows
  have hgives := gives_localInput (g := g) hvalid (hg.mono hgrows.extends) (g.op reader)
  rw [refineByReader] at h
  rw [refineByReader, refineByReader]
  cases hslot : (g.op reader).slotOf? v with
  | none => rfl
  | some index =>
    have hhint := hgives index
    have hagain := localInput_again (hg.mono hgrows.extends)
      (hsame.withTypes best.2 u) reader index
    cases hb : best.1 with
    | none =>
      simp only [hslot, hb] at h ⊢
      rw [hagain h]
      rfl
    | some current =>
      simp only [hslot, hb] at h ⊢
      have hwf := hhint.grows.wellFormed hvalid.types
      have hcurrent := hhint.grows.extends.has (hbest current hb)
      rw [hagain h]
      simp only [Interned.into, moreSpecificOf, TypeState.types_withTypes,
        h.moreSpecific hwf hhint.has hcurrent]

private theorem refineByReader_foldl_grows (hs : s.Valid) (hg : g.TypesIn s.types) (v : Nat)
    (readers : List OpId) {best : Option TypeId × TypeTable} (hgrows : s.types.Grows best.2)
    (hbest : HoldsCandidate best) :
    best.2.Grows (readers.foldl (refineByReader g s v) best).2 ∧
      HoldsCandidate (readers.foldl (refineByReader g s v) best) := by
  induction readers generalizing best with
  | nil => exact ⟨.refl, hbest⟩
  | cons reader rest ih =>
    have hstep := refineByReader_grows hs hg hgrows hbest v reader
    have hrest := ih (hgrows.trans hstep.1) hstep.2
    exact ⟨hstep.1.trans hrest.1, hrest.2⟩

private theorem refineByReader_foldl_again (hs : s.Valid) (hg : g.TypesIn s.types)
    (hsame : SameFixed g s s') (v : Nat) (readers : List OpId)
    {best : Option TypeId × TypeTable} (hgrows : s.types.Grows best.2)
    (hbest : HoldsCandidate best)
    (h : (readers.foldl (refineByReader g s v) best).2.Extends u) :
    readers.foldl (refineByReader g s' v) (best.1, u) =
      ((readers.foldl (refineByReader g s v) best).1, u) := by
  induction readers generalizing best with
  | nil => rfl
  | cons reader rest ih =>
    have hstep := refineByReader_grows hs hg hgrows hbest v reader
    have hrest := refineByReader_foldl_grows hs hg v rest (hgrows.trans hstep.1) hstep.2
    rw [List.foldl_cons] at h ⊢
    rw [refineByReader_again hs hg hsame hgrows hbest (hrest.1.extends.trans h)]
    exact ih (hgrows.trans hstep.1) hstep.2 h

/-- The readers of a value give a type that exists. -/
theorem gives_refineByReaders (hs : s.Valid) (hg : g.TypesIn s.types) (v : Nat)
    (start : Option TypeId × TypeTable) (hgrows : s.types.Grows start.2)
    (hstart : HoldsCandidate start) : start.2.Gives (refineByReaders g s v start) := by
  obtain ⟨hfold, hhas⟩ :=
    refineByReader_foldl_grows hs hg v (g.varnode v).readers hgrows hstart
  rw [refineByReaders]
  split
  · rename_i id hbest
    exact ⟨hfold, hhas id hbest⟩
  · have hunknown := ((g.varnode v).readers.foldl (refineByReader g s v) start).2.gives_atom
      (g.varnode v).size .unknown
    exact ⟨hfold.trans hunknown.grows, hunknown.has⟩

private theorem refineByReaders_again (hs : s.Valid) (hg : g.TypesIn s.types)
    (hsame : SameFixed g s s') {v : Nat} (start : Option TypeId × TypeTable)
    (hgrows : s.types.Grows start.2) (hstart : HoldsCandidate start)
    (h : (refineByReaders g s v start).table.Extends u) :
    refineByReaders g s' v (start.1, u) = (refineByReaders g s v start).into u := by
  have hagain := refineByReader_foldl_again (u := u) hs hg hsame v (g.varnode v).readers hgrows
    hstart
  rw [refineByReaders] at h
  rw [refineByReaders, refineByReaders]
  generalize hbest : (g.varnode v).readers.foldl (refineByReader g s v) start = best at h hagain ⊢
  cases hb : best.1 with
  | some id =>
    simp only [hb] at h ⊢
    rw [hagain h]
    simp only [hb]
    rfl
  | none =>
    simp only [hb] at h ⊢
    rw [hagain ((best.2.gives_atom _ _).grows.extends.trans h)]
    simp only [hb]
    exact atom_again h

/-! ## Guesses -/

/-- The same guess, with the type held by another table. -/
def Guess.into (guess : Guess) (u : TypeTable) : Guess := { guess with table := u }

/-- The local type of a value exists. -/
theorem gives_localType (hs : s.Valid) (hg : g.TypesIn s.types) (v : Nat) :
    s.types.Gives ⟨(localType g s v).id, (localType g s v).table⟩ := by
  rw [localType]
  split
  · exact gives_self (hs.committed v)
  · cases (g.varnode v).definition with
    | none =>
      exact gives_refineByReaders hs hg v (none, s.types) .refl
        (fun _ hid => by cases hid)
    | some o =>
      have hwritten := gives_localOutput (g := g) hs (g.op o)
      dsimp only
      split
      · exact hwritten
      · have hrefined := gives_refineByReaders hs hg v
          (some (localOutput g s (g.op o)).id, (localOutput g s (g.op o)).table) hwritten.grows
          (fun id hid => by cases hid; exact hwritten.has)
        exact hwritten.trans hrefined

/-- The local type of a value is found again. -/
theorem localType_again (hs : s.Valid) (hg : g.TypesIn s.types) (hsame : SameFixed g s s')
    {v : Nat} (h : (localType g s v).table.Extends s'.types) :
    localType g s' v = (localType g s v).into s'.types := by
  rw [localType] at h
  rw [localType, localType, hsame.locked v]
  split
  · rename_i hlocked
    rw [hsame.fixed v hlocked]
    rfl
  · rename_i hlocked
    rw [if_neg hlocked] at h
    cases hd : (g.varnode v).definition with
    | none =>
      simp only [hd] at h ⊢
      rw [refineByReaders_again hs hg hsame (none, s.types) .refl
        (fun _ hid => by cases hid) h]
      rfl
    | some o =>
      have hwritten := gives_localOutput (g := g) hs (g.op o)
      simp only [hd] at h ⊢
      split
      · rename_i hstops
        rw [if_pos hstops] at h
        rw [localOutput_again hsame h]
        rfl
      · rename_i hstops
        rw [if_neg hstops] at h
        have hholds : HoldsCandidate
            (some (localOutput g s (g.op o)).id, (localOutput g s (g.op o)).table) :=
          fun id hid => by cases hid; exact hwritten.has
        have hrefined := gives_refineByReaders hs hg v _ hwritten.grows hholds
        rw [localOutput_again hsame (hrefined.grows.extends.trans h)]
        have hagain := refineByReaders_again hs hg hsame _ hwritten.grows hholds h
        simp only [Interned.into] at hagain ⊢
        rw [hagain]
        rfl

end Transfer

end TypeRecovery
