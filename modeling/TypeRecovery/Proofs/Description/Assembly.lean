import TypeRecovery.Proofs.Graph.Construction

/-!
# Functions put together step by step

A function is put together from the one without values: values and ops are added to it, and what is
noted about them is changed. Every accepted description is such a sequence of steps, so whatever the
steps keep holds of every described function.
-/

namespace TypeRecovery

namespace Routine

variable {r r' m : Routine}

/-- A change of what is noted about a function. -/
inductive Amendment where
  /-- Restrict the bits of a value. -/
  | mask (v : VarnodeId) (mask : UInt64)
  /-- Compute the bits of all written values. -/
  | masks
  /-- Mark a value as an annotation, as tied to its address, or as both. -/
  | flags (v : VarnodeId) (annotated tied : Bool)
  /-- Designate the base register of the frame. -/
  | spaceBase (v : VarnodeId)
  /-- Note what is known of an op besides its operands and its result. -/
  | op (o : OpId) (dead : Bool) (leaving : HaltKind) (stopsPropagation creation : Bool)
  /-- Add a symbol. -/
  | symbol (s : Symbol)
  /-- Replace the type of a symbol. -/
  | symbolType (id : SymbolId) (type : TypeId)
  /-- Bind a value to new storage of a symbol. -/
  | bind (v : VarnodeId) (entry : SymbolEntry)
  /-- Suggest a type. -/
  | recommendation (x : Recommendation)
  /-- Replace the prototype. -/
  | prototype (p : Prototype)
  /-- Record the heritage passes of a space. -/
  | heritage (space : SpaceId) (passes : Nat)
  /-- Change the types of the values and their table in any way. -/
  | types (f : TypeState → TypeState)
  /-- Start type recovery, or withhold it. -/
  | start (started : Bool)
  /-- Attach a warning. -/
  | warning (text : String)

/-- The function after a change. -/
def amend (r : Routine) : Amendment → Routine
  | .mask v mask => r.modifyGraph (·.setMask v mask)
  | .masks => r.modifyGraph (·.computeMasks)
  | .flags v annotated tied => r.modifyGraph (·.modifyVarnode v fun node =>
      { node with
        annotation := node.annotation || annotated
        addrTied := node.addrTied || tied })
  | .spaceBase v => r.modifyGraph (·.setSpaceBase v)
  | .op o dead leaving stopsPropagation creation => r.modifyGraph (·.modifyOp o fun op =>
      { op with dead, halt := leaving, stopsPropagation, creation })
  | .symbol s => r.modifyGraph (·.addSymbol s)
  | .symbolType id type => r.modifyGraph (·.setSymbolType id type)
  | .bind v entry => r.modifyGraph (·.bindSymbol v entry)
  | .recommendation x => r.modifyGraph (·.addRecommendation x)
  | .prototype prototype => r.modifyGraph fun g => { g with prototype }
  | .heritage space passes => r.modifyGraph (·.setHeritage space passes)
  | .types f => r.modifyState f
  | .start started => { r with started }
  | .warning text => r.warn text

/-- The second function is put together from the first one. -/
inductive Assembles (r : Routine) : Routine → Prop where
  | refl : Assembles r r
  /-- Something is added, whether or not the function takes it. -/
  | add {m : Routine} (a : Addition) : Assembles r m → Assembles r (m.attempt a)
  /-- What is noted is changed. -/
  | amend {m : Routine} (e : Amendment) : Assembles r m → Assembles r (m.amend e)

/-- A function may be put together in several parts. -/
theorem Assembles.trans (h : r.Assembles m) (h' : m.Assembles r') : r.Assembles r' := by
  induction h' with
  | refl => exact h
  | add a _ ih => exact ih.add a
  | amend e _ ih => exact ih.amend e

private theorem assembles_attempt (r : Routine) (a : Addition) :
    r.Assembles (r.attempt a) := .add a .refl

private theorem assembles_linkOp {op : Op} (h : r.graph.Accepts op) :
    r.Assembles (r.modifyGraph (·.linkOp op)) := by
  have hadded := r.assembles_attempt (.op op)
  rw [attempt, add, tryOp_of_accepts h] at hadded
  exact hadded

private theorem assembles_amend (r : Routine) (e : Amendment) :
    r.Assembles (r.amend e) := .amend e .refl

/-- A function that was put together from nothing, and for which no round was called. -/
def IsNew (r : Routine) : Prop :=
  ∃ name spaces stack types, (Routine.empty name spaces stack types).Assembles r

private theorem progress_attempt (r : Routine) (a : Addition) :
    (r.attempt a).progress = r.progress ∧ (r.attempt a).exceeded = r.exceeded := by
  cases a with
  | op op => rcases r.attempt_op op with ⟨-, heq⟩ | heq <;> rw [heq] <;> exact ⟨rfl, rfl⟩
  | _ => exact ⟨rfl, rfl⟩

private theorem progress_amend (r : Routine) (e : Amendment) :
    (r.amend e).progress = r.progress ∧ (r.amend e).exceeded = r.exceeded := by
  cases e <;> exact ⟨rfl, rfl⟩

/-- Putting a function together does not touch the state of the rounds. -/
theorem Assembles.progress (h : r.Assembles r') :
    r'.progress = r.progress ∧ r'.exceeded = r.exceeded := by
  induction h with
  | refl => exact ⟨rfl, rfl⟩
  | @add m a _ ih =>
    exact ⟨(m.progress_attempt a).1.trans ih.1, (m.progress_attempt a).2.trans ih.2⟩
  | @amend m e _ ih =>
    exact ⟨(m.progress_amend e).1.trans ih.1, (m.progress_amend e).2.trans ih.2⟩

end Routine

/-! ## Descriptions -/

namespace Description

open Routine (Assembles)

variable {names : TypeExpr.Names} {r r' : Routine}

private theorem assembles_denoteIn {text : String} {id : TypeId}
    (h : denoteIn names r text = .ok (id, r')) : r.Assembles r' := by
  obtain ⟨result, -, hok⟩ := bind_eq_ok h
  cases hok
  exact r.assembles_amend (.types (·.withTypes result.table))

/-- Adding a symbol is a step of putting a function together. -/
theorem assembles_addSymbol {d : SymbolDecl} (h : addSymbol names r d = .ok r') :
    r.Assembles r' := by
  obtain ⟨⟨type, typed⟩, hdenote, hok⟩ := bind_eq_ok h
  cases hok
  exact (assembles_denoteIn hdenote).amend (.symbol ⟨d.name, type, d.typeLocked⟩)

private theorem assembles_placeVarnode (r : Routine) (d : VarnodeDecl) (space : SpaceId) :
    r.Assembles (placeVarnode r d space) := by
  rw [placeVarnode]
  split
  · exact r.assembles_attempt (.constant d.size.toNat d.offset)
  · split
    · exact r.assembles_attempt (.input d.size.toNat ⟨space, d.offset⟩)
    · exact r.assembles_attempt (.varnode d.size.toNat ⟨space, d.offset⟩)

private theorem assembles_flagVarnode (r : Routine) (v : VarnodeId) (d : VarnodeDecl) :
    r.Assembles (r.modifyGraph fun g => flagVarnode g v d) := by
  simp only [flagVarnode]
  split
  · exact (r.assembles_amend (.spaceBase v)).amend (.flags v d.annotation d.addrTied)
  · exact r.assembles_amend (.flags v d.annotation d.addrTied)

private theorem assembles_typeVarnode {v : VarnodeId} {d : VarnodeDecl}
    (h : typeVarnode names r v d = .ok r') : r.Assembles r' := by
  rw [typeVarnode] at h
  split at h
  · obtain ⟨⟨type, typed⟩, hdenote, hrest⟩ := bind_eq_ok h
    have htyped := assembles_denoteIn hdenote
    dsimp only at hrest
    split at hrest
    · cases hrest
      exact htyped.amend (.types (·.lock v type))
    · cases hrest
      exact htyped.amend (.types fun s => (s.commit v type).setTemporary v type)
  · split at h
    · cases h
      exact r.assembles_amend (.types fun s => s.lock v (s.committed v))
    · cases h
      exact .refl

private theorem assembles_bindVarnode {v : VarnodeId} {d : VarnodeDecl} {space : SpaceId}
    (h : bindVarnode r v d space = .ok r') : r.Assembles r' := by
  rw [bindVarnode] at h
  split at h
  · cases h
    exact .refl
  · split at h
    · cases h
    · cases h
      exact r.assembles_amend (.bind v _)

/-- Adding a value is a sequence of such steps. -/
theorem assembles_addVarnode {n n' : NamedRoutine} {d : VarnodeDecl}
    (h : addVarnode names n d = .ok n') : n.routine.Assembles n'.routine := by
  rw [addVarnode] at h
  split at h
  · cases h
  · split at h
    · cases h
    · obtain ⟨space, -, h⟩ := bind_eq_ok h
      obtain ⟨typed, htyped, h⟩ := bind_eq_ok h
      obtain ⟨bound, hbound, hok⟩ := bind_eq_ok h
      cases hok
      exact (((assembles_placeVarnode n.routine d space).trans (assembles_flagVarnode _ _ d)).trans
        (assembles_typeVarnode htyped)).trans (assembles_bindVarnode hbound)

/-- Adding an op is such a step. -/
theorem assembles_addOp {code : SpaceId} {n n' : NamedRoutine} {d : OpDecl}
    (h : addOp code n d = .ok n') : n.routine.Assembles n'.routine := by
  obtain ⟨inputs, -, h⟩ := bind_eq_ok h
  obtain ⟨output, -, h⟩ := bind_eq_ok h
  dsimp only at h
  split at h
  · cases h
  · obtain ⟨routine, hroutine, hok⟩ := bind_eq_ok h
    cases hok
    obtain ⟨haccepts, rfl⟩ := Routine.accepts_of_newOp hroutine
    exact Routine.assembles_linkOp haccepts

private theorem assembles_addRecommendation {d : RecommendationDecl}
    (h : addRecommendation names r d = .ok r') : r.Assembles r' := by
  obtain ⟨space, -, h⟩ := bind_eq_ok h
  obtain ⟨⟨type, typed⟩, hdenote, hok⟩ := bind_eq_ok h
  cases hok
  exact (assembles_denoteIn hdenote).amend (.recommendation ⟨⟨space, d.offset⟩, type⟩)

private theorem assembles_addHeritage {entry : String × UInt32} (h : addHeritage r entry = .ok r') :
    r.Assembles r' := by
  obtain ⟨space, -, hok⟩ := bind_eq_ok h
  cases hok
  exact r.assembles_amend (.heritage space entry.2.toNat)

private theorem assembles_setPrototype {d : PrototypeDecl} (h : setPrototype names r d = .ok r') :
    r.Assembles r' := by
  rw [setPrototype] at h
  split at h
  · cases h
    exact r.assembles_amend (.prototype ⟨d.outputLocked, none⟩)
  · obtain ⟨⟨type, typed⟩, hdenote, hok⟩ := bind_eq_ok h
    cases hok
    exact (assembles_denoteIn hdenote).amend (.prototype ⟨d.outputLocked, some type⟩)

private theorem assembles_setMasks (written : Bool) (given : List (VarnodeId × UInt64))
    (r : Routine) :
    r.Assembles (r.modifyGraph fun g => setMasks written g given) := by
  induction given generalizing r with
  | nil => exact .refl
  | cons entry rest ih =>
    obtain ⟨v, mask⟩ := entry
    have hhead : r.Assembles (r.modifyGraph fun g =>
        if (g.varnode v).isWritten = written then g.setMask v mask else g) := by
      rw [Routine.modifyGraph]
      split
      · exact r.assembles_amend (.mask v mask)
      · exact .refl
    exact hhead.trans (ih _)

private theorem assembles_installMasks (d : Description) (r : Routine) :
    r.Assembles (r.modifyGraph d.installMasks) :=
  ((assembles_setMasks false d.givenMasks r).amend .masks).trans
    (assembles_setMasks true d.givenMasks _)

/-- Until the masks are installed a function is put together from nothing. -/
theorem isNew_unmasked {d : Description} {n : NamedRoutine} (h : d.unmasked = .ok n) :
    n.routine.IsNew := by
  obtain ⟨spaces, -, h⟩ := bind_eq_ok h
  obtain ⟨stack, -, h⟩ := bind_eq_ok h
  obtain ⟨types, -, h⟩ := bind_eq_ok h
  obtain ⟨symbols, hsymbols, h⟩ := bind_eq_ok h
  obtain ⟨values, hvalues, h⟩ := bind_eq_ok h
  obtain ⟨ops, hops, h⟩ := bind_eq_ok h
  obtain ⟨recommended, hrecommended, h⟩ := bind_eq_ok h
  obtain ⟨inherited, hinherited, h⟩ := bind_eq_ok h
  obtain ⟨prototyped, hprototyped, hok⟩ := bind_eq_ok h
  cases hok
  refine ⟨d.name, spaces, stack, types.table, ?_⟩
  have hstart := (Routine.empty d.name spaces stack types.table).assembles_amend
    (.start d.typeRecoveryStarted)
  have hsymbols := foldlM_keeps
    (fun _ _ _ hr hstep => Assembles.trans hr (assembles_addSymbol hstep)) hstart hsymbols
  have hvalues := foldlM_keeps
    (P := fun n => (Routine.empty d.name spaces stack types.table).Assembles n.routine)
    (fun _ _ _ hr hstep => Assembles.trans hr (assembles_addVarnode hstep)) hsymbols hvalues
  have hops := foldlM_keeps
    (P := fun n => (Routine.empty d.name spaces stack types.table).Assembles n.routine)
    (fun _ _ _ hr hstep => Assembles.trans hr (assembles_addOp hstep)) hvalues hops
  have hrecommended := foldlM_keeps
    (fun _ _ _ hr hstep => Assembles.trans hr (assembles_addRecommendation hstep))
    hops hrecommended
  have hinherited := foldlM_keeps
    (fun _ _ _ hr hstep => Assembles.trans hr (assembles_addHeritage hstep))
    hrecommended hinherited
  exact hinherited.trans (assembles_setPrototype hprototyped)

/-- The function that an accepted description describes is put together from nothing. -/
theorem isNew_build {d : Description} {n : NamedRoutine} (h : d.build = .ok n) :
    n.routine.IsNew := by
  obtain ⟨parts, hparts, rfl⟩ := build_eq_ok h
  obtain ⟨name, spaces, stack, types, hassembles⟩ := isNew_unmasked hparts
  exact ⟨name, spaces, stack, types, hassembles.trans (d.assembles_installMasks parts.routine)⟩

end Description

end TypeRecovery
