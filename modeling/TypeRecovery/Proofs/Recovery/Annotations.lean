import TypeRecovery.Proofs.Recovery.Frame
import TypeRecovery.Proofs.Recovery.Returns
import TypeRecovery.Proofs.Recovery.Stability

/-!
# Annotations

An annotation takes no part in type recovery. It gets no first guess, no type flows to it or is
copied onto it, and nothing is committed to it. But two steps of a round choose their values in
another way. The unification of returned values gives the common type to an annotation that is
returned, and a recommendation locks an annotation that is an input. Every change of the types of
an annotation comes from one of the two.
-/

namespace TypeRecovery

namespace Recovery

open TypeTable TypeState

variable {g : Graph} {skip : Bool} {p q : Pass} {a : Action} {as : List Action} {v t size : Nat}

/-! ## Recommendations -/

/-- What the recommendations leave of a value is what was there, or the value is locked and both of
its types are the recommended one. -/
theorem applyRecommendation_foldl_installed (todo : List Recommendation) (s : TypeState × Nat)
    (v : Nat) : (todo.foldl (applyRecommendation g) s).1.typing v = s.1.typing v ∨
      (todo.foldl (applyRecommendation g) s).1.temporary v =
        (todo.foldl (applyRecommendation g) s).1.committed v := by
  induction todo generalizing s with
  | nil => exact Or.inl rfl
  | cons x rest ih =>
    rw [List.foldl_cons]
    rcases ih (applyRecommendation g s x) with hsame | hinstalled
    · rw [temporary, committed, hsame, applyRecommendation]
      cases g.findInput? (s.1.types.size x.type) x.address with
      | none => exact Or.inl rfl
      | some w =>
        dsimp only
        split
        · exact Or.inl rfl
        · rw [lock, typing_modify]
          split
          · exact Or.inr rfl
          · exact Or.inl rfl
    · exact Or.inr hinstalled

/-! ## What a pass does to an annotation -/

section Annotated

variable (hv : Varnode.annotation (g.varnode v) = true)

include hv

/-- There is no annotation in a graph without values. -/
theorem pos_of_annotated : 0 < g.varnodes.size := by
  apply Nat.pos_of_ne_zero
  intro hempty
  rw [Graph.varnode_of_le (hempty ▸ Nat.zero_le v)] at hv
  cases hv

/-- An annotation cannot be observed. -/
theorem not_isObservable : (g.varnode v).isObservable ≠ true := by
  rw [Varnode.isObservable, hv]
  exact Bool.false_ne_true

private theorem not_mem_observables (hg : g.WellFormed) : v ∉ g.observables :=
  mt hg.mem_observables.mp (not_isObservable hv)

/-- An annotation takes no type along an edge. -/
theorem Writes.unified_or_aliased {cause : Cause} (h : Writes g p q a v t cause) :
    a = .unified v t ∨ a = .aliased v t := by
  have hcauses := h.causes
  cases a with
  | entered root w => cases hcauses
  | offered r =>
    have hnot := (h.taker r rfl).2
    rw [hv] at hnot
    cases hnot
  | unified w u =>
    obtain ⟨rfl, rfl, -⟩ := hcauses
    exact Or.inl rfl
  | aliased w u =>
    obtain ⟨rfl, rfl, -⟩ := hcauses
    exact Or.inr rfl

/-- Traversals leave the type of an annotation alone. -/
theorem Run.temporary_of_flow (h : Run g skip p as q) (hp : p.state.Valid)
    (hflow : ∀ a ∈ as, a.IsFlow) : q.state.temporary v = p.state.temporary v := by
  refine h.temporary_of_not_writes hp fun m _ a ha t cause hwrites => ?_
  have hkind := hflow a ha
  rcases hwrites.unified_or_aliased hv with rfl | rfl
  · cases hkind
  · cases hkind

private theorem temporary_propagate (hg : g.WellFormed) (hp : p.state.Valid) {root : Nat}
    (hroot : root < g.varnodes.size) :
    (propagate g skip p root).state.temporary v = p.state.temporary v := by
  obtain ⟨as, hrun, hflow⟩ := propagate_trace skip hg p hroot
  exact hrun.temporary_of_flow hv hp hflow.isFlow

private theorem temporary_propagateAll (hg : g.WellFormed) (hp : p.state.Valid) :
    (propagateAll g skip p).state.temporary v = p.state.temporary v := by
  obtain ⟨as, hrun, hflow, -⟩ := propagateAll_trace skip hg p
  exact hrun.temporary_of_flow hv hp hflow.isFlow

/-- Copying types onto the frame leaves the type of an annotation alone. -/
theorem temporary_aliasFrame (hg : g.WellFormed) (hp : p.state.Valid) :
    (aliasFrame g skip p).state.temporary v = p.state.temporary v := by
  obtain ⟨as, hrun, hframe, -⟩ := aliasFrame_trace skip hg hp
  refine hrun.temporary_of_not_writes hp fun m _ a ha t cause hwrites => ?_
  rcases hframe.kinds a ha with hflow | ⟨w, u, hw, rfl⟩
  · rcases hwrites.unified_or_aliased hv with rfl | rfl
    · cases hflow
    · cases hflow
  · rcases hwrites.unified_or_aliased hv with hkind | hkind
    · cases hkind
    · cases hkind
      exact not_isObservable hv hw.observable

end Annotated

/-! ## The common type of the returned values -/

/-- A returned value of the right size that is free to take the common type. -/
structure Accepts (g : Graph) (s : TypeState) (t : TypeId) (size : Nat) (v : VarnodeId) : Prop where
  /-- The value has the size. -/
  size : (g.varnode v).size = size
  /-- Its type is not fixed. -/
  unlocked : s.locked v = false
  /-- It can only be zero or one if the type is that of truth values. -/
  boolean : s.types.metatype t = .bool → (g.varnode v).mask ≤ 1

instance (g : Graph) (s : TypeState) (t : TypeId) (size : Nat) (v : VarnodeId) :
    Decidable (Accepts g s t size v) :=
  decidable_of_iff ((g.varnode v).size = size ∧ s.locked v = false ∧
      (s.types.metatype t = .bool → (g.varnode v).mask ≤ 1))
    ⟨fun h => ⟨h.1, h.2.1, h.2.2⟩, fun h => ⟨h.size, h.unlocked, h.boolean⟩⟩

/-- Whether a value accepts the common type does not change during a round. -/
theorem Accepts.congr {s s' : TypeState} (h : s.Later s') (ht : s.types.Has t) :
    Accepts g s' t size v ↔ Accepts g s t size v := by
  constructor
  · intro hv
    refine ⟨hv.size, (h.locked v).symm.trans hv.unlocked, ?_⟩
    rw [← h.types.extends.metatype ht]
    exact hv.boolean
  · intro hv
    refine ⟨hv.size, (h.locked v).trans hv.unlocked, ?_⟩
    rw [h.types.extends.metatype ht]
    exact hv.boolean

/-- An annotation whose turn comes gets the common type if it is free to take it, and it keeps its
type at the turns of others. -/
theorem temporary_unifyReturn (hv : Varnode.annotation (g.varnode v) = true) (hg : g.WellFormed)
    (hp : p.state.Valid) (ht : p.state.types.Has t) (hsize : p.state.values.size = g.varnodes.size)
    {w : Nat} (hw : w < g.varnodes.size) :
    (unifyReturn g skip t size p w).state.temporary v =
      if v = w ∧ Accepts g p.state t size w then t else p.state.temporary v := by
  rw [unifyReturn]
  split
  · rename_i hfixed
    rw [if_neg]
    rintro ⟨-, hw⟩
    rcases hfixed with hother | hlocked
    · exact hother hw.size
    · rw [hw.unlocked] at hlocked
      cases hlocked
  · rename_i hfree
    rw [not_or, not_not, Bool.not_eq_true] at hfree
    split
    · rename_i hbool
      rw [if_neg]
      rintro ⟨-, hw⟩
      exact UInt64.not_lt.mpr (hw.boolean hbool.1) hbool.2
    · rename_i hbool
      have haccepts : Accepts g p.state t size w :=
        ⟨hfree.1, hfree.2, fun h => UInt64.not_lt.mp fun hlt => hbool ⟨h, hlt⟩⟩
      split
      · rename_i hsame
        split
        · rename_i hturn
          rw [hturn.1, hsame]
        · rfl
      · have hset := hp.setTemporary (v := w) ht
        rw [← Pass.state_setTemporary p w t .unifiedReturn] at hset
        rw [temporary_propagate hv hg hset hw, Pass.state_setTemporary, temporary_setTemporary]
        by_cases hturn : v = w
        · rw [if_pos ⟨hturn, hsize ▸ hw⟩, if_pos ⟨hturn, haccepts⟩]
        · rw [if_neg fun h => hturn h.1, if_neg fun h => hturn h.1]

/-- The unification gives an annotation the common type exactly if it accepts it. -/
theorem temporary_unifyReturn_foldl (hv : Varnode.annotation (g.varnode v) = true)
    (hg : g.WellFormed) (hp : p.state.Valid) (ht : p.state.types.Has t)
    (hsize : p.state.values.size = g.varnodes.size) {todo : List VarnodeId}
    (htodo : ∀ w ∈ todo, w ∈ returnedValues g) :
    (todo.foldl (unifyReturn g skip t size) p).state.temporary v =
      if v ∈ todo ∧ Accepts g p.state t size v then t else p.state.temporary v := by
  induction todo generalizing p with
  | nil => rw [if_neg fun h => by cases h.1]; rfl
  | cons w rest ih =>
    have hreturned := htodo w List.mem_cons_self
    obtain ⟨as, hrun, -⟩ := unifyReturn_trace skip hg ht hreturned size
    obtain ⟨hp', ht'⟩ := hrun.keeps_has ⟨hp, ht⟩
    have hlater := hrun.later hp
    obtain ⟨o, -, hin⟩ := mem_inputs_of_mem_returnedValues hreturned
    rw [List.foldl_cons, ih hp' ht' (hlater.size.trans hsize)
        fun w hw => htodo w (List.mem_cons_of_mem _ hw),
      temporary_unifyReturn hv hg hp ht hsize (hg.lt_of_mem_inputs hin)]
    by_cases haccepts : Accepts g p.state t size v
    · have haccepts' := (Accepts.congr hlater ht).mpr haccepts
      by_cases hturn : v = w
      · subst hturn
        simp [haccepts]
      · simp [haccepts, haccepts', hturn]
    · have hnot' := mt (Accepts.congr hlater ht).mp haccepts
      have hturn : ¬(v = w ∧ Accepts g p.state t size w) := fun h => haccepts (h.1 ▸ h.2)
      rw [if_neg fun h => hnot' h.2, if_neg hturn, if_neg fun h => haccepts h.2]

/-- The type that a returned value is to share when the types were pushed. -/
def CommonType (g : Graph) (s : TypeState) (v : VarnodeId) (t : TypeId) : Prop :=
  g.prototype.outputLocked = false ∧ ∃ i canonical,
    mostSpecificFrom s 0 none (returnedValues g) = some (i, canonical) ∧
      Joins g s canonical v ∧ s.temporary canonical = t

/-- An annotation ends the unification with the type that it is to share, and with its own if there
is none. -/
theorem temporary_unifyReturns (skip : Bool) (hv : Varnode.annotation (g.varnode v) = true)
    (hg : g.WellFormed) (hp : p.state.Valid) (hsize : p.state.values.size = g.varnodes.size) :
    (∀ t, CommonType g p.state v t → (unifyReturns g skip p).state.temporary v = t) ∧
      ((∀ t, ¬CommonType g p.state v t) →
        (unifyReturns g skip p).state.temporary v = p.state.temporary v) := by
  rw [unifyReturns]
  split
  · rename_i hfixed
    refine ⟨fun t ht => ?_, fun _ => rfl⟩
    rw [ht.1] at hfixed
    cases hfixed
  · rename_i hfree
    cases hbest : mostSpecificFrom p.state 0 none (returnedValues g) with
    | none =>
      refine ⟨fun t ht => ?_, fun _ => rfl⟩
      obtain ⟨-, i, canonical, hsome, -⟩ := ht
      rw [hbest] at hsome
      cases hsome
    | some best =>
      obtain ⟨i, canonical⟩ := best
      have hreturned : ∀ w ∈ (returnedValues g).eraseIdx i, w ∈ returnedValues g :=
        fun w hw => List.mem_of_mem_eraseIdx hw
      dsimp only
      rw [temporary_unifyReturn_foldl hv hg hp (hp.temporary canonical) hsize hreturned]
      constructor
      · rintro t ⟨-, i', canonical', hbest', hjoins, rfl⟩
        obtain ⟨rfl, rfl⟩ : i' = i ∧ canonical' = canonical := by
          rw [hbest] at hbest'
          cases hbest'
          exact ⟨rfl, rfl⟩
        by_cases hcanonical : v = canonical'
        · subst hcanonical
          rw [ite_self]
        · rw [if_pos ⟨mem_eraseIdx_of_ne_canonical hbest hjoins.returned hcanonical,
            hjoins.size, hjoins.unlocked, hjoins.boolean⟩]
      · intro hnone
        rw [if_neg]
        rintro ⟨hmem, haccepts⟩
        exact hnone _ ⟨Bool.eq_false_iff.mpr hfree, i, canonical, hbest,
          ⟨hreturned v hmem, haccepts.size, haccepts.unlocked, haccepts.boolean⟩, rfl⟩

/-- The common type is not less specific than that of a value that is to share it. -/
theorem CommonType.isLE {s : TypeState} (h : CommonType g s v t) :
    (s.types.order t (s.temporary v)).isLE = true := by
  obtain ⟨-, i, canonical, hbest, hjoins, rfl⟩ := h
  exact mostSpecificFrom_least hbest v hjoins.returned

/-- A value that gets the common type is returned. -/
theorem CommonType.returned {s : TypeState} (h : CommonType g s v t) : v ∈ returnedValues g := by
  obtain ⟨-, i, canonical, -, hjoins, -⟩ := h
  exact hjoins.returned

/-- A value that gets the common type is not locked. -/
theorem CommonType.unlocked {s : TypeState} (h : CommonType g s v t) : s.locked v = false := by
  obtain ⟨-, i, canonical, -, hjoins, -⟩ := h
  exact hjoins.unlocked

/-- The common type exists. -/
theorem CommonType.has {s : TypeState} (h : CommonType g s v t) (hs : s.Valid) :
    s.types.Has t := by
  obtain ⟨-, i, canonical, -, -, rfl⟩ := h
  exact hs.temporary canonical

end Recovery

namespace Routine

open Recovery TypeState

variable {r r' r'' : Routine} {v t : Nat}

/-! ## One round -/

/-- The pass of a round when the types were pushed. -/
def pushed (c : Config) (r : Routine) : Pass :=
  propagateAll r.graph (skipsMerges c r.graph) r.guessed

/-- The pass of a round when the returned values were unified. -/
def unified (c : Config) (r : Routine) : Pass :=
  if c.propagateAcrossReturns then unifyReturns r.graph (skipsMerges c r.graph) (r.pushed c)
  else r.pushed c

private theorem pass_eq (c : Config) (r : Routine) : r.pass c =
    if c.propagateSpacebase then aliasFrame r.graph (skipsMerges c r.graph) (r.unified c)
    else r.unified c := rfl

/-- The type that a round gives to a returned value for the sake of the others. -/
def Shares (c : Config) (r : Routine) (v : VarnodeId) (t : TypeId) : Prop :=
  c.propagateAcrossReturns = true ∧ CommonType r.graph (r.pushed c).state v t

/-- A value with the same types and the same lock as before. -/
structure Unaltered (s s' : TypeState) (v : VarnodeId) : Prop where
  /-- The committed type is the same. -/
  committed : s'.committed v = s.committed v
  /-- The temporary type is the same. -/
  temporary : s'.temporary v = s.temporary v
  /-- The lock is the same. -/
  locked : s'.locked v = s.locked v

/-- How the types of an annotation can change. -/
inductive AnnotationChange (r r' : Routine) (v : VarnodeId) : Prop where
  /-- Nothing has changed. -/
  | unaltered (h : Unaltered r.state r'.state v)
  /-- The annotation is returned, and its temporary type became more specific. -/
  | shared (hreturned : v ∈ returnedValues r.graph)
      (hfree : r.graph.prototype.outputLocked = false) (hlocked : r.state.locked v = false)
      (hlocked' : r'.state.locked v = false)
      (hcommitted : r'.state.committed v = r.state.committed v)
      (horder : r'.state.types.order (r'.state.temporary v) (r.state.temporary v) = .lt)
  /-- The annotation got locked, and both of its types are one that is recommended for it. -/
  | locked (hlocked : r.state.locked v = false) (hlocked' : r'.state.locked v = true)
      (htemporary : r'.state.temporary v = r'.state.committed v)
      (hfor : r.graph.Recommends r.state.types v (r'.state.committed v))

section Round

variable (hr : r.WellFormed) (c : Config)

include hr

section Moments

variable (hpos : 0 < r.graph.varnodes.size)

include hpos

private theorem WellFormed.pushed_later :
    r.recommended.Later (r.pushed c).state ∧ (r.pushed c).state.Valid := by
  obtain ⟨hlater, hvalid⟩ := hr.guessed_later hpos
  obtain ⟨flows, hrun, -⟩ := propagateAll_trace (skipsMerges c r.graph) hr.graph r.guessed
  exact ⟨hlater.trans (hrun.later hvalid), hrun.valid hvalid⟩

private theorem WellFormed.unified_later :
    (r.pushed c).state.Later (r.unified c).state ∧ (r.unified c).state.Valid := by
  obtain ⟨-, hvalid⟩ := hr.pushed_later c hpos
  rw [unified]
  split
  · obtain ⟨-, as, hrun, -⟩ := unifyReturns_trace (skipsMerges c r.graph) hr.graph hvalid
    exact hrun.later_and_valid hvalid
  · exact ⟨.refl _, hvalid⟩

private theorem WellFormed.pushed_later_pass : (r.pushed c).state.Later (r.pass c).state := by
  obtain ⟨hlater, hvalid⟩ := hr.unified_later c hpos
  rw [pass_eq]
  split
  · obtain ⟨as, hrun, -⟩ := aliasFrame_trace (skipsMerges c r.graph) hr.graph hvalid
    exact hlater.trans (hrun.later hvalid)
  · exact hlater

private theorem WellFormed.size_pushed :
    (r.pushed c).state.values.size = r.graph.varnodes.size := by
  rw [(hr.pushed_later c hpos).1.size, (hr.recommended_spec hpos).1.size, hr.sizes]

end Moments

variable (hv : Varnode.annotation (r.graph.varnode v) = true)

include hv

/-- An annotation has its old type until the returned values are unified. -/
theorem WellFormed.temporary_pushed_of_annotated :
    (r.pushed c).state.temporary v = r.recommended.temporary v := by
  have hnot := not_mem_observables hv hr.graph
  rw [pushed, temporary_propagateAll hv hr.graph (hr.guessed_later (pos_of_annotated hv)).2,
    guessed, seedAll, temporary_seedValue_foldl hnot]

/-- A round replaces the temporary type of an annotation by the one that it is to share, and by no
other. -/
theorem WellFormed.temporary_runRound_of_annotated :
    (∀ t, r.Shares c v t → (r.runRound c).routine.state.temporary v = t) ∧
      ((∀ t, ¬r.Shares c v t) →
        (r.runRound c).routine.state.temporary v = r.recommended.temporary v) := by
  have hpos := pos_of_annotated hv
  have hvalid := (hr.unified_later c hpos).2
  have hlast : (r.runRound c).routine.state.temporary v = (r.unified c).state.temporary v := by
    rw [state_runRound, ((commitAll_frame r.graph (r.pass c).state).2.2.2 v).1, pass_eq]
    split
    · exact temporary_aliasFrame hv hr.graph hvalid
    · rfl
  rw [hlast, unified, ← hr.temporary_pushed_of_annotated c hv]
  split
  · rename_i hreturns
    obtain ⟨hshared, hkept⟩ := temporary_unifyReturns (skipsMerges c r.graph) hv hr.graph
      (hr.pushed_later c hpos).2 (hr.size_pushed c hpos)
    exact ⟨fun t ht => hshared t ht.2, fun hnone => hkept fun t ht => hnone t ⟨hreturns, ht⟩⟩
  · rename_i hreturns
    exact ⟨fun t ht => absurd ht.1 hreturns, fun _ => rfl⟩

/-- Nothing is committed to an annotation. -/
theorem WellFormed.committed_runRound_of_annotated :
    (r.runRound c).routine.state.committed v = r.recommended.committed v := by
  have hnot := not_mem_observables hv hr.graph
  rw [state_runRound, committed_commitAll, if_neg fun h => hnot h.1,
    (hr.pass_later (pos_of_annotated hv) c).1.committed]

/-- A type that an annotation is to share and does not have yet is more specific than its own. -/
theorem WellFormed.order_of_shares (h : r.Shares c v t) (hne : t ≠ r.recommended.temporary v) :
    (r.runRound c).routine.state.types.order t (r.recommended.temporary v) = .lt := by
  have hpos := pos_of_annotated hv
  obtain ⟨-, hvalid⟩ := hr.pushed_later c hpos
  have hle := h.2.isLE
  rw [state_runRound, (commitAll_frame _ _).1, ← hr.temporary_pushed_of_annotated c hv,
    (hr.pushed_later_pass c hpos).types.extends.order hvalid.types (h.2.has hvalid)
      (hvalid.temporary v)]
  rw [← hr.temporary_pushed_of_annotated c hv] at hne
  exact TypeTable.order_lt_of_isLE hle hne

/-- A round leaves an annotation as it is exactly if no recommendation is for it, unless it is
locked, and it has the type that it is to share. -/
theorem WellFormed.unaltered_runRound_iff : Unaltered r.state (r.runRound c).routine.state v ↔
    (∀ t, r.graph.Recommends r.state.types v t → r.state.locked v = true) ∧
      ∀ t, r.Shares c v t → t = r.state.temporary v := by
  have hpos := pos_of_annotated hv
  obtain ⟨hshared, hkept⟩ := hr.temporary_runRound_of_annotated c hv
  have hlock := hr.locked_runRound hpos c v
  constructor
  · intro h
    refine ⟨fun t ht => ?_, fun t ht => ?_⟩
    · obtain ⟨x, hx, rfl, hfound⟩ := ht
      rw [← h.locked, hlock]
      exact (hr.recommended_spec hpos).2.2 x hx v hfound
    · rw [← h.temporary, hshared t ht]
  · rintro ⟨hfor, hown⟩
    have hsame : r.recommended.typing v = r.state.typing v := by
      rcases r.typing_recommended v with hsame | ⟨hfree, -, hrecommends⟩
      · exact hsame
      · rw [hfor _ hrecommends] at hfree
        cases hfree
    refine ⟨(hr.committed_runRound_of_annotated c hv).trans (congrArg Typing.committed hsame), ?_,
      hlock.trans (congrArg Typing.locked hsame)⟩
    by_cases hsome : ∃ t, r.Shares c v t
    · obtain ⟨t, ht⟩ := hsome
      rw [hshared t ht, hown t ht]
    · exact (hkept fun t ht => hsome ⟨t, ht⟩).trans (congrArg Typing.temporary hsame)

/-- What one round does to an annotation. -/
theorem WellFormed.annotationChange_runRound : AnnotationChange r (r.runRound c).routine v := by
  have hpos := pos_of_annotated hv
  obtain ⟨hshared, hkept⟩ := hr.temporary_runRound_of_annotated c hv
  have hcommitted := hr.committed_runRound_of_annotated c hv
  have hlock := hr.locked_runRound hpos c v
  by_cases hunaltered : Unaltered r.state (r.runRound c).routine.state v
  · exact .unaltered hunaltered
  · rcases r.typing_recommended v with hsame | ⟨hfree, hlocked, hfor⟩
    · have htemporary : r.recommended.temporary v = r.state.temporary v :=
        congrArg Typing.temporary hsame
      have hlock' : r.recommended.locked v = r.state.locked v := congrArg Typing.locked hsame
      -- no recommendation applies, so there is a type to share
      obtain ⟨t, ht, hne⟩ : ∃ t, r.Shares c v t ∧ t ≠ r.state.temporary v := by
        by_contra hnone
        apply hunaltered
        refine (hr.unaltered_runRound_iff c hv).mpr ⟨?_, fun t ht => ?_⟩
        · rintro _ ⟨x, hx, rfl, hfound⟩
          exact hlock'.symm.trans ((hr.recommended_spec hpos).2.2 x hx v hfound)
        · by_contra hne
          exact hnone ⟨t, ht, hne⟩
      have hfree : r.recommended.locked v = false := by
        rw [← (hr.pushed_later c hpos).1.locked]
        exact ht.2.unlocked
      refine .shared ht.2.returned ht.2.1 (hlock'.symm.trans hfree) (hlock.trans hfree)
        (hcommitted.trans (congrArg Typing.committed hsame)) ?_
      rw [hshared t ht, ← htemporary]
      exact hr.order_of_shares c hv ht (htemporary ▸ hne)
    · have hnone (t : Nat) : ¬r.Shares c v t := by
        intro ht
        have hunlocked := ht.2.unlocked
        rw [(hr.pushed_later c hpos).1.locked, hlocked] at hunlocked
        cases hunlocked
      refine .locked hfree (hlock.trans hlocked) ?_ (hcommitted ▸ hfor)
      rw [hkept hnone, hcommitted]
      rcases applyRecommendation_foldl_installed (g := r.graph) r.graph.recommendations
        (r.state, 0) v with hsame | hinstalled
      · have hlocked' : r.state.locked v = true :=
          (congrArg Typing.locked hsame).symm.trans hlocked
        rw [hfree] at hlocked'
        cases hlocked'
      · exact hinstalled

end Round

/-! ## Sequences of calls -/

/-- Changes of annotations compose. -/
theorem AnnotationChange.trans (hr : r.WellFormed) (hr' : r'.WellFormed)
    (hpos : 0 < r.graph.varnodes.size) (hkeeps : r.Keeps r') (hkeeps' : r'.Keeps r'')
    (h : AnnotationChange r r' v) (h' : AnnotationChange r' r'' v) : AnnotationChange r r'' v := by
  have hrecommends := (hkeeps.trans hkeeps' hr.mentioned).recommended v
  have hvalid' := hr'.valid (by rw [hkeeps.graph]; exact hpos)
  cases h with
  | unaltered h =>
    cases h' with
    | unaltered h' =>
      exact .unaltered ⟨h'.committed.trans h.committed, h'.temporary.trans h.temporary,
        h'.locked.trans h.locked⟩
    | shared hreturned hfree hlocked hlocked' hcommitted horder =>
      rw [hkeeps.graph] at hreturned hfree
      rw [h.temporary] at horder
      exact .shared hreturned hfree (h.locked.symm.trans hlocked) hlocked'
        (hcommitted.trans h.committed) horder
    | locked hlocked hlocked' htemporary hfor =>
      have hfree := h.locked.symm.trans hlocked
      exact .locked hfree hlocked' htemporary (hrecommends hfree hlocked')
  | shared hreturned hfree hlocked hlocked' hcommitted horder =>
    have horder' : r''.state.types.order (r'.state.temporary v) (r.state.temporary v) = .lt := by
      rw [hkeeps'.types.order hvalid'.types (hvalid'.temporary v)
        (hkeeps.types.has ((hr.valid hpos).temporary v))]
      exact horder
    cases h' with
    | unaltered h' =>
      rw [← h'.temporary] at horder'
      exact .shared hreturned hfree hlocked (h'.locked.trans hlocked')
        (h'.committed.trans hcommitted) horder'
    | shared hreturned' hfree' hunlocked hunlocked' hcommitted' hless =>
      exact .shared hreturned hfree hlocked hunlocked' (hcommitted'.trans hcommitted)
        (Std.TransCmp.lt_trans hless horder')
    | locked hunlocked hlast htemporary hfor =>
      exact .locked hlocked hlast htemporary (hrecommends hlocked hlast)
  | locked hlocked hlocked' htemporary hfor =>
    cases h' with
    | unaltered h' =>
      have hlast := h'.locked.trans hlocked'
      exact .locked hlocked hlast (h'.temporary.trans (htemporary.trans h'.committed.symm))
        (hrecommends hlocked hlast)
    | shared _ _ hunlocked =>
      rw [hlocked'] at hunlocked
      cases hunlocked
    | locked hunlocked =>
      rw [hlocked'] at hunlocked
      cases hunlocked

/-- A call changes the type of an annotation in the ways that are listed only. -/
theorem WellFormed.annotationChange_call (hr : r.WellFormed)
    (hv : Varnode.annotation (r.graph.varnode v) = true) (a : Call) :
    AnnotationChange r (r.call a) v := by
  cases a with
  | reset => exact .unaltered ⟨rfl, rfl, rfl⟩
  | apply c =>
    rw [Routine.call]
    rcases r.apply_cases c with hround | ⟨-, -, -, hstate⟩
    · rw [hround]
      exact hr.annotationChange_runRound c hv
    · refine .unaltered ⟨?_, ?_, ?_⟩ <;> rw [hstate]

/-- Calls change the type of an annotation in the ways that are listed only. -/
theorem WellFormed.annotationChange_calls (hr : r.WellFormed)
    (hv : Varnode.annotation (r.graph.varnode v) = true) (sequence : List Call) :
    AnnotationChange r (r.calls sequence) v := by
  induction sequence generalizing r with
  | nil => exact .unaltered ⟨rfl, rfl, rfl⟩
  | cons a rest ih =>
    have hrest := ih (hr.call a) (by rw [graph_call]; exact hv)
    exact (hr.annotationChange_call hv a).trans hr (hr.call a) (pos_of_annotated hv)
      (hr.keeps_call a) ((hr.call a).keeps_calls rest) hrest

/-- Through any sequence of calls the types of an annotation stay as they are, unless it is returned
and its temporary type becomes more specific, or it gets locked to a type that is recommended for
it. After any such sequence the next round leaves it as it is exactly if no recommendation is for
it, unless it is locked, and it has the type that it is to share with the other returned values. -/
theorem WellFormed.annotations_calls (hr : r.WellFormed)
    (hv : Varnode.annotation (r.graph.varnode v) = true) (sequence : List Call) :
    AnnotationChange r (r.calls sequence) v ∧
      ∀ c, Unaltered (r.calls sequence).state ((r.calls sequence).runRound c).routine.state v ↔
        (∀ t, r.graph.Recommends (r.calls sequence).state.types v t →
          (r.calls sequence).state.locked v = true) ∧
        ∀ t, (r.calls sequence).Shares c v t → t = (r.calls sequence).state.temporary v := by
  refine ⟨hr.annotationChange_calls hv sequence, fun c => ?_⟩
  have hgraph := r.graph_calls sequence
  rw [← hgraph] at hv ⊢
  exact (hr.calls sequence).unaltered_runRound_iff c hv

/-- A locked input is returned, and so is an annotation. Another annotation is an input for which a
type is recommended. -/
def annotatedReturn : Routine :=
  let types := (TypeTable.empty 8).perform (.base 4 .float) |>.perform (.base 4 .int)
  let values := (Routine.empty "f" .simple 2 types).newConstant 8 1 |>.newInput 4 ⟨1, 0⟩
    |>.newVarnode 4 ⟨1, 8⟩ |>.newInput 4 ⟨1, 16⟩
  (values.modifyState (·.lock 1 0)).modifyGraph fun g =>
    (g.modifyVarnode 2 fun node => { node with annotation := true })
      |>.modifyVarnode 3 (fun node => { node with annotation := true })
      |>.linkOp { opcode := .ret, address := ⟨1, 0⟩, inputs := [0, 1], output := none }
      |>.linkOp { opcode := .ret, address := ⟨1, 1⟩, inputs := [0, 2], output := none }
      |>.addRecommendation ⟨⟨1, 16⟩, 1⟩

/-- The first annotation gets the type of the input, and the second one is locked to the recommended
type. -/
theorem annotatedReturn_annotations_calls :
    (annotatedReturn.state.locked 2 = false ∧ 2 ∈ returnedValues annotatedReturn.graph ∧
      (annotatedReturn.calls [.reset, .apply {}]).state.types.order
        ((annotatedReturn.calls [.reset, .apply {}]).state.temporary 2)
        (annotatedReturn.state.temporary 2) = .lt) ∧
    annotatedReturn.graph.Recommends annotatedReturn.state.types 3
      ((annotatedReturn.calls [.reset, .apply {}]).state.committed 3) ∧
    (annotatedReturn.calls [.reset, .apply {}]).state.committed 3 ≠
      annotatedReturn.state.committed 3 := by
  have hr : annotatedReturn.WellFormed := by decide +kernel
  have hfirst := (hr.annotations_calls (v := 2) (by decide +kernel) [.reset, .apply {}]).1
  have hsecond := (hr.annotations_calls (v := 3) (by decide +kernel) [.reset, .apply {}]).1
  have hcommitted : (annotatedReturn.calls [.reset, .apply {}]).state.committed 3 ≠
      annotatedReturn.state.committed 3 := by decide +kernel
  constructor
  · cases hfirst with
    | unaltered h => exact absurd h.temporary (by decide +kernel)
    | shared hreturned _ hlocked _ _ horder => exact ⟨hlocked, hreturned, horder⟩
    | locked _ hlocked' => exact absurd hlocked' (by decide +kernel)
  · cases hsecond with
    | unaltered h => exact absurd h.committed hcommitted
    | shared hreturned => exact absurd hreturned (by decide +kernel)
    | locked _ _ _ hfor => exact ⟨hfor, hcommitted⟩

end Routine

end TypeRecovery
