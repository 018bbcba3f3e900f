import TypeRecovery.Proofs.DataType.Interning
import TypeRecovery.Proofs.Graph.Links
import TypeRecovery.Proofs.Recovery.Fitting
import TypeRecovery.Proofs.Report.Verify

/-!
# Types keep the sizes of their values

Every phase of a round keeps the types of a function as wide as its values: recommendations, first
guesses, traversals, the unification of returned values, the copies onto the frame, and the commit.
So does every sequence of calls, and a check of the function finds no type of another size.
-/

namespace TypeRecovery

namespace Recovery

open TypeTable TypeState

variable {g : Graph} {skip : Bool} {s : TypeState} {p q : Pass} {t v : Nat}

/-! ## Traversals -/

/-- A step of a traversal keeps the types fitting. -/
theorem Fitting.act (hg : g.WellFormed) (hsizes : g.WellSized) (h : Fitting g p.state)
    {a : Action} (ha : a.IsFlow) : Fitting g (act g skip p a).state := by
  cases a with
  | entered root v => exact h
  | offered r =>
    have hjudged := h.learns (judge_learns g skip h.valid r)
    rcases act_offered g skip h.valid r with ⟨-, -, hstate⟩ | ⟨v, t, htaken, hstate, -⟩
    · rw [hstate]
      exact hjudged
    · rw [hstate]
      exact hjudged.setTemporary (judge_taken h.valid htaken).has
        (size_of_taken hg hsizes h htaken)
  | unified v t => cases ha
  | aliased v t => cases ha

/-- Traversals keep the types fitting. -/
theorem Run.fitting (hg : g.WellFormed) (hsizes : g.WellSized) {as : List Action}
    (hrun : Run g skip p as q) (has : ∀ a ∈ as, a.IsFlow) (h : Fitting g p.state) :
    Fitting g q.state := by
  induction hrun with
  | nil => exact h
  | @cons p q a rest ha _ ih =>
    exact ih (fun b hb => has b (List.mem_cons_of_mem a hb))
      (h.act hg hsizes (has a List.mem_cons_self))

/-- A pass went on, and the types still fit. -/
structure Keeps (g : Graph) (p q : Pass) : Prop where
  /-- Types and choices were added, and temporary types replaced. -/
  later : p.state.Later q.state
  /-- The types fit. -/
  fitting : Fitting g q.state

/-- Nothing has to happen. -/
theorem Keeps.refl (h : Fitting g p.state) : Keeps g p p := ⟨.refl _, h⟩

/-- What fits after one part fits after the next. -/
theorem Keeps.trans {m : Pass} (h : Keeps g p m) (h' : Keeps g m q) : Keeps g p q :=
  ⟨h.later.trans h'.later, h'.fitting⟩

private theorem keeps_setTemporary (h : Fitting g p.state) (hhas : p.state.types.Has t)
    (hsize : p.state.types.size t = (g.varnode v).size) (cause : Cause) :
    Keeps g p (p.setTemporary v t cause) := by
  refine ⟨?_, ?_⟩
  · rw [Pass.state_setTemporary]
    exact later_setTemporary ..
  · rw [Pass.state_setTemporary]
    exact h.setTemporary hhas hsize

/-- The canonical value is one of the values. -/
theorem mem_of_mostSpecificFrom {l : List VarnodeId} {i : Nat}
    (h : mostSpecificFrom s 0 none l = some (i, v)) : v ∈ l := by
  cases l with
  | nil => cases h
  | cons x rest =>
    obtain ⟨j, b, hb, hmem, -⟩ := mostSpecificFrom_some s 1 0 x rest
    rw [mostSpecificFrom, hb] at h
    cases h
    exact List.mem_cons.mpr hmem

section Phases

variable (hg : g.WellFormed) (hsizes : g.WellSized)

include hg hsizes

private theorem keeps_propagate (skip : Bool) {root : Nat} (hroot : root < g.varnodes.size)
    (h : Fitting g p.state) : Keeps g p (propagate g skip p root) := by
  obtain ⟨as, hrun, hflow⟩ := propagate_trace skip hg p hroot
  exact ⟨hrun.later h.valid, hrun.fitting hg hsizes hflow.isFlow h⟩

private theorem keeps_propagateAll (skip : Bool) (h : Fitting g p.state) :
    Keeps g p (propagateAll g skip p) := by
  obtain ⟨as, hrun, hflow, -⟩ := propagateAll_trace skip hg p
  exact ⟨hrun.later h.valid, hrun.fitting hg hsizes hflow.isFlow h⟩

/-! ## Returned values -/

private theorem keeps_unifyReturn (skip : Bool) (hv : v < g.varnodes.size) (h : Fitting g p.state)
    (hhas : p.state.types.Has t) {size : Nat} (hsize : p.state.types.size t = size) :
    Keeps g p (unifyReturn g skip t size p v) := by
  rw [unifyReturn]
  split
  · exact .refl h
  · rename_i hfree
    rw [not_or, not_not] at hfree
    split
    · exact .refl h
    · split
      · exact .refl h
      · have hset := keeps_setTemporary h hhas (hsize.trans hfree.1.symm) .unifiedReturn
        exact hset.trans (keeps_propagate hg hsizes skip hv hset.fitting)

/-- Unifying returned values keeps the types fitting. -/
theorem keeps_unifyReturns (skip : Bool) (h : Fitting g p.state) :
    Keeps g p (unifyReturns g skip p) := by
  have hreturned {w : Nat} (hw : w ∈ returnedValues g) : w < g.varnodes.size := by
    obtain ⟨o, -, hin⟩ := mem_inputs_of_mem_returnedValues hw
    exact hg.lt_of_mem_inputs hin
  rw [unifyReturns]
  split
  · exact .refl h
  · cases hbest : mostSpecificFrom p.state 0 none (returnedValues g) with
    | none => exact .refl h
    | some best =>
      obtain ⟨canonical, b⟩ := best
      have hb := h.sized.temporary b (hreturned (mem_of_mostSpecificFrom hbest))
      refine List.foldlRecOn _ _ (Keeps.refl h) fun q hq w hw => ?_
      have hext := hq.later.types.extends
      have hcommon := h.valid.temporary b
      refine hq.trans (keeps_unifyReturn hg hsizes skip
        (hreturned (List.mem_of_mem_eraseIdx hw)) hq.fitting (hext.has hcommon) ?_)
      rw [hext.size hcommon]
      exact hb

/-! ## The frame -/

private theorem keeps_aliasValue (skip : Bool) (start : UInt64) {pointee : Nat}
    (h : Fitting g p.state) (hpointee : p.state.types.Has pointee) (v : Nat) :
    Keeps g p (aliasValue g skip start pointee p v) := by
  rw [aliasValue]
  dsimp only
  split
  · exact .refl h
  · rename_i hfree
    simp only [Bool.or_eq_true, Bool.not_eq_true', not_or, Bool.not_eq_false] at hfree
    have hv := Graph.WellFormed.lt_of_observable hfree.1.1
    split
    · exact .refl h
    · cases hpiece : p.state.types.exactPiece pointee
          (g.stackSpace.wrap ((g.varnode v).address.offset - start)).toNat (g.varnode v).size with
      | none => exact .refl h
      | some piece =>
        dsimp only
        split
        · have hset := keeps_setTemporary h (h.valid.types.has_exactPiece hpointee hpiece)
            (size_exactPiece hpiece) .stackAlias
          exact hset.trans (keeps_propagate hg hsizes skip hv hset.fitting)
        · exact .refl h

private theorem keeps_aliasReference (skip : Bool) (h : Fitting g p.state)
    (reference : VarnodeId × UInt64) : Keeps g p (aliasReference g skip p reference) := by
  rw [aliasReference_eq skip hg h.valid]
  cases hp : p.state.types.pointee? (p.state.temporary reference.1) with
  | none => exact .refl h
  | some pointee =>
    have hpointee := h.valid.types.has_pointee (h.valid.temporary _) hp
    dsimp only
    split
    · exact .refl h
    · refine List.foldlRecOn _ _ (Keeps.refl h) fun q hq v _ => ?_
      exact hq.trans (keeps_aliasValue hg hsizes skip _ hq.fitting
        (hq.later.types.extends.has hpointee) v)

/-- Copying types onto the frame keeps the types fitting. -/
theorem keeps_aliasFrame (skip : Bool) (h : Fitting g p.state) :
    Keeps g p (aliasFrame g skip p) := by
  rw [aliasFrame]
  cases g.spaceBase with
  | none => exact .refl h
  | some base =>
    dsimp only
    split
    · refine List.foldlRecOn _ _ (Keeps.refl h) fun q hq reference _ => ?_
      exact hq.trans (keeps_aliasReference hg hsizes skip hq.fitting reference)
    · exact .refl h

end Phases

/-! ## Guesses, recommendations and the commit -/

/-- Blocking a value keeps the types fitting. -/
theorem Fitting.block (h : Fitting g s) (v : Nat) : Fitting g (s.block v) where
  valid := ⟨h.valid.types, fun w => by simpa using h.valid.temporary w,
    fun w => by simpa using h.valid.committed w⟩
  unions := h.unions
  sized := ⟨fun w hw => by simpa using h.sized.temporary w hw,
    fun w hw => by simpa using h.sized.committed w hw⟩

private theorem keeps_seedValue (hg : g.WellFormed) (hmentioned : g.TypesIn p.state.types)
    (h : Fitting g p.state) (hv : v < g.varnodes.size) : Keeps g p (seedValue g p v) := by
  refine ⟨(seedValue_later h.valid hmentioned v).1, ?_⟩
  have hgives := gives_seedType h.valid hmentioned v
  have hsize := size_seedType h hv hg hmentioned
  rw [state_seedValue]
  generalize seedType g p.state v = guess at hgives hsize ⊢
  have hlearned := h.learns ((Learns.refl p.state).withTypes hgives.grows)
  have hguessed : Fitting g (guessedState p.state v guess) := by
    rw [guessedState]
    split
    · exact hlearned.block v
    · exact hlearned
  exact hguessed.setTemporary (by simpa using hgives.has) (by simpa using hsize)

/-- The first guesses keep the types fitting. -/
theorem keeps_seedAll (hg : g.WellFormed) (hmentioned : g.TypesIn p.state.types)
    (h : Fitting g p.state) : Keeps g p (seedAll g p) := by
  refine List.foldlRecOn _ _ (Keeps.refl h) fun q hq v hv => ?_
  exact hq.trans (keeps_seedValue hg (hmentioned.mono hq.later.types.extends) hq.fitting
    (Graph.WellFormed.lt_of_observable (hg.mem_observables.mp hv)))

private theorem fitting_applyRecommendation {x : TypeState × Nat}
    (h : Fitting g x.1) {r : Recommendation} (hr : x.1.types.Has r.type) :
    Fitting g (applyRecommendation g x r).1 := by
  rw [applyRecommendation]
  cases hv : g.findInput? (x.1.types.size r.type) r.address with
  | none => exact h
  | some v =>
    dsimp only
    split
    · exact h
    · exact h.lock hr (Graph.findInput?_spec hv).2.1.symm

private theorem fitting_applyRecommendations (hmentioned : g.TypesIn s.types) (h : Fitting g s) :
    Fitting g (applyRecommendations g s).1 := by
  have hfold : (applyRecommendations g s).1.types = s.types ∧
      Fitting g (applyRecommendations g s).1 := by
    refine List.foldlRecOn
      (motive := fun x : TypeState × Nat => x.1.types = s.types ∧ Fitting g x.1) _ _ ⟨rfl, h⟩ ?_
    rintro x ⟨htypes, hx⟩ r hr
    refine ⟨(applyRecommendation_locks x r).types.trans htypes, ?_⟩
    apply fitting_applyRecommendation hx
    rw [htypes]
    exact hmentioned.recommendations r hr
  exact hfold.2

private theorem fitting_commitAll (h : Fitting g s) : Fitting g (commitAll g s).1 := by
  obtain ⟨htypes, -, -, hframe⟩ := commitAll_frame g s
  refine ⟨commitAll_valid g h.valid, by rw [htypes]; exact h.unions, fun v hv => ?_, fun v hv => ?_⟩
  · rw [htypes, (hframe v).1]
    exact h.sized.temporary v hv
  · rw [htypes, committed_commitAll]
    split
    · exact h.sized.temporary v hv
    · exact h.sized.committed v hv

/-- A pass keeps the types fitting. -/
theorem fitting_recover (c : Config) (hg : g.WellFormed) (hsizes : g.WellSized)
    (hmentioned : g.TypesIn s.types) (h : Fitting g s) : Fitting g (recover c g s).state := by
  have hguessed := keeps_seedAll (p := { state := s }) hg hmentioned h
  have hpushed := keeps_propagateAll hg hsizes (skipsMerges c g) hguessed.fitting
  rw [recover]
  generalize propagateAll g (skipsMerges c g) (seedAll g { state := s }) = pushed at hpushed ⊢
  have hunified : Fitting g (if c.propagateAcrossReturns then
      unifyReturns g (skipsMerges c g) pushed else pushed).state := by
    split
    · exact (keeps_unifyReturns hg hsizes _ hpushed.fitting).fitting
    · exact hpushed.fitting
  split
  · exact (keeps_aliasFrame hg hsizes _ hunified).fitting
  · exact hunified

end Recovery

namespace Routine

open Recovery

variable {r : Routine}

/-- A well-formed function whose types fit its values. -/
structure Fits (r : Routine) : Prop where
  /-- Its parts refer to what exists. -/
  wellFormed : r.WellFormed
  /-- Its values are where the graph has them. -/
  placed : r.graph.Placed
  /-- No field of a union is wider than the union. -/
  unions : r.state.types.UnionsFit
  /-- Its ops and types agree with the sizes of its values. -/
  sized : r.WellSized

/-- Only the graph and the types have to fit. -/
theorem Fits.congr {r' : Routine} (h : r.Fits) (hgraph : r'.graph = r.graph)
    (hstate : r'.state = r.state) : r'.Fits where
  wellFormed := h.wellFormed.congr hgraph hstate
  placed := hgraph ▸ h.placed
  unions := hstate ▸ h.unions
  sized := ⟨hgraph ▸ h.sized.graph, by rw [hgraph, hstate]; exact h.sized.types⟩

/-- A round keeps the types fitting. -/
theorem Fits.runRound (h : r.Fits) (c : Config) : (r.runRound c).routine.Fits := by
  by_cases hpos : 0 < r.graph.varnodes.size
  · have hmentioned := h.wellFormed.recommended_typesIn hpos
    have hfitting := fitting_applyRecommendations h.wellFormed.mentioned
      ⟨h.wellFormed.valid hpos, h.unions, h.sized.types⟩
    have hround := fitting_commitAll
      (fitting_recover c h.wellFormed.graph h.sized.graph hmentioned hfitting)
    refine ⟨h.wellFormed.runRound c, ?_, ?_, ?_, ?_⟩
    · rw [graph_runRound]
      exact h.placed
    · rw [state_runRound]
      exact hround.unions
    · rw [graph_runRound]
      exact h.sized.graph
    · rw [graph_runRound, state_runRound]
      exact hround.sized
  · exact h.congr graph_runRound
      (h.wellFormed.state_runRound_of_empty (Nat.eq_zero_of_not_pos hpos) c)

/-- A call keeps the types fitting. -/
theorem Fits.call (h : r.Fits) (a : Call) : (r.call a).Fits := by
  cases a with
  | reset => exact h.congr rfl rfl
  | apply c =>
    rw [Routine.call, Routine.apply]
    split
    · exact h
    · split
      · exact h
      · split
        · exact h.congr rfl rfl
        · exact h.runRound c

/-- Calls keep the types fitting. -/
theorem Fits.calls (h : r.Fits) (sequence : List Call) : (r.calls sequence).Fits :=
  List.foldlRecOn sequence _ h fun _ hr a _ => hr.call a

/-- A check of a function whose types fit finds no type of another size. -/
theorem sizeMismatch_not_mem_verify (h : r.state.Sized r.graph) (noted : LockedTypes)
    (v valueSize typeSize : Nat) :
    .sizeMismatch v valueSize typeSize ∉ (r.verify noted).violations := by
  rw [sizeMismatch_mem_verify, mem_observablesInOrder]
  rintro ⟨hv, rfl, rfl, hne⟩
  exact hne (h.committed v hv.1)

/-- In a function whose ops combine values of the sizes they are meant to have, and whose types have
the sizes of its values, they still do after any sequence of rounds and resets, under whatever
configurations, and a check of the function reports no type of another size. -/
theorem WellFormed.calls_sized (hr : r.WellFormed) (hplaced : r.graph.Placed) {pointerSize : Nat}
    (htypes : (TypeTable.empty pointerSize).Reaches r.state.types) (hsized : r.WellSized)
    (sequence : List Call) :
    (∀ v < r.graph.varnodes.size,
      (r.calls sequence).state.types.size ((r.calls sequence).state.committed v) =
          (r.graph.varnode v).size ∧
        (r.calls sequence).state.types.size ((r.calls sequence).state.temporary v) =
          (r.graph.varnode v).size) ∧
      ∀ noted v valueSize typeSize,
        .sizeMismatch v valueSize typeSize ∉ ((r.calls sequence).verify noted).violations := by
  have hfits := Fits.calls ⟨hr, hplaced, htypes.unionsFit, hsized⟩ sequence
  have htypes := hfits.sized.types
  refine ⟨fun v hv => ?_, sizeMismatch_not_mem_verify htypes⟩
  rw [graph_calls] at htypes
  exact ⟨htypes.committed v hv, htypes.temporary v hv⟩

/-- Integers, a structure of two of them, a pointer to it, and unknown bytes. -/
def fieldTypes : TypeTable :=
  (TypeTable.empty 8).perform (.base 4 .int)
    |>.perform (.struct "s" 8 [⟨0, "a", 0⟩, ⟨4, "b", 0⟩]) |>.perform (.pointer 1 1)
    |>.perform (.unknown 8) |>.perform (.unknown 4)

private theorem reaches_fieldTypes : (TypeTable.empty 8).Reaches fieldTypes := by
  refine .call _ (.call _ (.call _ (.call _ (.call _ .refl ?_) ?_) ?_) ?_) ?_
  all_goals decide +kernel

/-- The second field of a locked `s *` is loaded, copied and stored back. -/
def fieldAccess : Routine :=
  let values := (Routine.empty "f" .simple 2 fieldTypes).newInput 8 ⟨1, 0⟩ |>.newConstant 8 4
    |>.newConstant 8 1 |>.newVarnode 8 ⟨1, 8⟩ |>.newVarnode 4 ⟨1, 16⟩ |>.newVarnode 4 ⟨1, 24⟩
  (values.modifyState (·.lock 0 2)).modifyGraph fun g =>
    g.linkOp { opcode := .intAdd, address := ⟨1, 0⟩, inputs := [0, 1], output := some 3 }
      |>.linkOp { opcode := .load, address := ⟨1, 1⟩, inputs := [2, 3], output := some 4 }
      |>.linkOp { opcode := .copy, address := ⟨1, 2⟩, inputs := [4], output := some 5 }
      |>.linkOp { opcode := .store, address := ⟨1, 3⟩, inputs := [2, 3, 5], output := none }

/-- The sum becomes a pointer to the field, and what is loaded through it becomes the field, each at
its size. -/
theorem fieldAccess_calls_sized :
    fieldAccess.WellFormed ∧ fieldAccess.graph.Placed ∧ fieldAccess.WellSized ∧
      (TypeTable.empty 8).Reaches fieldAccess.state.types ∧
      (fieldAccess.calls [.apply {}, .reset, .apply {}]).state.types.name
        ((fieldAccess.calls [.apply {}, .reset, .apply {}]).state.committed 3) = "int4 *" ∧
      (fieldAccess.calls [.apply {}, .reset, .apply {}]).state.types.size
        ((fieldAccess.calls [.apply {}, .reset, .apply {}]).state.committed 3) = 8 ∧
      (fieldAccess.calls [.apply {}, .reset, .apply {}]).state.types.size
        ((fieldAccess.calls [.apply {}, .reset, .apply {}]).state.temporary 4) = 4 := by
  have hr : fieldAccess.WellFormed := by decide +kernel
  have hplaced : fieldAccess.graph.Placed := by decide +kernel
  have hsized : fieldAccess.WellSized := by decide +kernel
  have htypes : (TypeTable.empty 8).Reaches fieldAccess.state.types := by
    have hsame : fieldAccess.state.types = fieldTypes := by decide +kernel
    rw [hsame]
    exact reaches_fieldTypes
  have hcalls := (hr.calls_sized hplaced htypes hsized [.apply {}, .reset, .apply {}]).1
  exact ⟨hr, hplaced, hsized, htypes, by decide +kernel, (hcalls 3 (by decide +kernel)).1,
    (hcalls 4 (by decide +kernel)).2⟩

end Routine

end TypeRecovery
