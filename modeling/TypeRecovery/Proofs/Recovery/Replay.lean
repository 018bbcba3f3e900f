import TypeRecovery.Proofs.Recovery.Trace

/-!
# Replaying a pass

A pass is repeated in a state that already holds every type and every choice of a field that the
first pass came to add. The repeated pass then takes the same decisions step by step, and it adds
nothing. A choice that the first pass met before it was made has to be the one it made later, so
every union must have a field that flows.
-/

namespace TypeRecovery

namespace TypeState

variable {s s' final : TypeState}

/-- The second state holds the types and the choices of the first. -/
structure Precedes (s final : TypeState) : Prop where
  /-- Types stay what they are. -/
  types : s.types.Extends final.types
  /-- Fields that were chosen stay chosen. -/
  choices : ∀ (o : Nat) slot field, s.choice? o slot = some field →
    final.choice? o slot = some field

private theorem Precedes.of_later (h : s.Later s') (h' : s'.Precedes final) : s.Precedes final where
  types := h.types.extends.trans h'.types
  choices o slot field hf := h'.choices o slot field (h.choices o slot field hf)

end TypeState

namespace Recovery

open TypeTable TypeState

variable {g : Graph} {skip : Bool} {s final : TypeState} {p p' q : Pass}

/-- A pass, and the same pass repeated over the types and choices of a final state. -/
structure Mirrors (g : Graph) (final : TypeState) (p p' : Pass) : Prop where
  /-- The types of the first pass exist. -/
  valid : p.state.Valid
  /-- Every union has a field that flows. -/
  covered : p.state.types.UnionsCovered
  /-- The repeated pass has all types. -/
  types : p'.state.types = final.types
  /-- The repeated pass has all choices. -/
  choices : p'.state.choices = final.choices
  /-- The passes have the same values, -/
  size : p'.state.values.size = p.state.values.size
  /-- with the same types, -/
  temporary : ∀ v, p'.state.temporary v = p.state.temporary v
  /-- the same of them locked, -/
  locked : ∀ v, p'.state.locked v = p.state.locked v
  /-- and the same of them blocked. -/
  blocked : ∀ v, p'.state.blocked v = p.state.blocked v
  /-- The base register has the same committed type. -/
  base : ∀ base, g.spaceBase = some base → p'.state.committed base = p.state.committed base
  /-- The passes counted the same. -/
  stats : p'.stats = p.stats

namespace Mirrors

private theorem types_extends (h : Mirrors g final p p') (hp : p.state.Precedes final) :
    p.state.types.Extends p'.state.types := by
  rw [h.types]
  exact hp.types

/-- The replay need not learn again. -/
theorem learns (h : Mirrors g final p p') (hs : p.state.Learns s) :
    Mirrors g final { p with state := s } p' where
  valid := hs.valid h.valid
  covered := h.covered.grows h.valid.types hs.types
  types := h.types
  choices := h.choices
  size := by rw [h.size, hs.values]
  temporary v := (h.temporary v).trans (hs.temporary v).symm
  locked v := (h.locked v).trans (hs.locked v).symm
  blocked v := (h.blocked v).trans (hs.blocked v).symm
  base b hb := (h.base b hb).trans (hs.committed b).symm
  stats := h.stats

/-- The replay replaces the same temporary types. -/
theorem setTemporary (h : Mirrors g final p p') {t : Nat} (ht : p.state.types.Has t) (v : Nat)
    (cause : Cause) :
    Mirrors g final (p.setTemporary v t cause) (p'.setTemporary v t cause) := by
  constructor <;> simp only [Pass.state_setTemporary, Pass.stats_setTemporary, types_setTemporary,
    choices_setTemporary, size_setTemporary, locked_setTemporary, blocked_setTemporary,
    committed_setTemporary]
  · exact h.valid.setTemporary ht
  · exact h.covered
  · exact h.types
  · exact h.choices
  · exact h.size
  · intro w
    rw [temporary_setTemporary, temporary_setTemporary, h.size, h.temporary]
  · exact h.locked
  · exact h.blocked
  · exact h.base
  · exact h.stats

/-- The replay counts the same edges that were tried. -/
theorem countTried (h : Mirrors g final p p') : Mirrors g final p.countTried p'.countTried :=
  { h with stats := by rw [Pass.countTried, Pass.countTried, h.stats] }

/-- The replay counts the same edges that were accepted. -/
theorem countAccepted (h : Mirrors g final p p') :
    Mirrors g final p.countAccepted p'.countAccepted :=
  { h with stats := by rw [Pass.countAccepted, Pass.countAccepted, h.stats] }

/-- The replay enters the same values. -/
theorem enter (h : Mirrors g final p p') (root v : Nat) :
    Mirrors g final (p.enter root v) (p'.enter root v) :=
  { h with stats := by rw [Pass.enter, Pass.enter, h.stats] }

end Mirrors

/-! ## Traversals -/

/-- A union that flows out of a slot leaves a choice there. -/
theorem flowingType_chosen (hs : s.types.UnionsCovered) {v : Nat}
    (hneeds : s.types.needsResolution (s.temporary v) = true) (o : Nat) (slot : Slot) :
    ((flowingType s v o slot).2.choice? o slot).isSome = true := by
  have hsome :=
    chooseField_isSome (hs.bestUnionField?_isSome (metatype_of_needsResolution hneeds)) o slot
  rw [fst_chooseField] at hsome
  rw [flowingType, if_pos hneeds, resolveUnion]
  dsimp only
  split
  · exact hsome
  · split
    · exact hsome
    · exact hsome

/-- An offer is decided in the replay as it was before, and nothing new is learned. -/
theorem judge_mirrors (h : Mirrors g final p p') {r : EdgeRef}
    (hfinal : (judge g skip p.state r).state.Precedes final) :
    judge g skip p'.state r = ⟨(judge g skip p.state r).taken, p'.state⟩ := by
  rcases slots_cases g r with ⟨source, dest, hin, hout⟩ | hmissing
  · refine judge_again h.valid (fun v _ => h.temporary v) h.locked h.blocked
      (h.types ▸ hfinal.types) ?_
    intro source' hin' hneeds
    rw [hin] at hin'
    cases hin'
    -- the choice was made when the type flowed, if not before
    have hchosen := flowingType_chosen h.covered hneeds r.op r.inSlot
    rw [choice?, ← choices_judge skip (g := g) hin hout, ← choice?] at hchosen
    obtain ⟨field, hfield⟩ := Option.isSome_iff_exists.mp hchosen
    rw [hfield, choice?, h.choices]
    exact hfinal.choices r.op r.inSlot field hfield
  · rw [judge_of_missing hmissing, judge_of_missing hmissing]

/-- A repeated offer is taken if the first one was, and the passes go on alike. -/
theorem offered_mirrors (h : Mirrors g final p p') {r : EdgeRef}
    (hfinal : (act g skip p (.offered r)).state.Precedes final) :
    (judge g skip p'.state r).taken = (judge g skip p.state r).taken ∧
      Mirrors g final (act g skip p (.offered r)) (act g skip p' (.offered r)) := by
  have hlearns := judge_learns g skip h.valid r
  have hcount (p : Pass) : p.countTried.state = p.state := rfl
  rcases act_offered g skip h.valid r with
    ⟨hnone, -, hstate⟩ | ⟨v, t, hsome, hstate, hwrites⟩
  · rw [hstate] at hfinal
    have hagain := judge_mirrors h hfinal
    refine ⟨by rw [hagain], ?_⟩
    rw [act, act, offer_eq, offer_eq, hcount, hcount, hagain, hnone]
    exact h.countTried.learns hlearns
  · rw [hstate] at hfinal
    have hagain := judge_mirrors h (.of_later (later_setTemporary ..) hfinal)
    refine ⟨by rw [hagain], ?_⟩
    rw [act, act, offer_eq, offer_eq, hcount, hcount, hagain, hsome]
    have hhas := (judge_taken h.valid hsome).has
    exact ((h.countTried.learns hlearns).setTemporary hhas v _).countAccepted

/-- Two walks with passes that mirror each other, over the same values. -/
structure WalkMirrors (g : Graph) (final : TypeState) (w w' : Walk) : Prop where
  /-- The passes mirror each other. -/
  pass : Mirrors g final w.pass w'.pass
  /-- The same values were entered. -/
  visited : w'.visited = w.visited

private theorem tryEdge_mirrors (hg : g.WellFormed) {root depth : Nat}
    {next : VarnodeId → Walk → Walk}
    (htrace : ∀ v w, Fits g depth w → ∃ as, Run g skip w.pass as (next v w).pass ∧
      FlowTrace g as ∧ (∀ r ∈ edges g v, .offered r ∈ as) ∧ Fits g depth (next v w))
    (hnext : ∀ v w w', Fits g depth w → WalkMirrors g final w w' →
      (next v w).pass.state.Precedes final → WalkMirrors g final (next v w) (next v w'))
    {w w' : Walk} (hw : Fits g (depth + 1) w) (h : WalkMirrors g final w w') {r : EdgeRef}
    (hfinal : (tryEdge g skip root next w r).pass.state.Precedes final) :
    WalkMirrors g final (tryEdge g skip root next w r) (tryEdge g skip root next w' r) := by
  have hoffered : (act g skip w.pass (.offered r)).state.Precedes final →
      _ ∧ Mirrors g final _ _ := offered_mirrors h.pass
  have hvalid : (act g skip w.pass (.offered r)).state.Valid :=
    act_valid skip h.pass.valid trivial
  rw [tryEdge_eq g skip root next w] at hfinal ⊢
  rw [tryEdge_eq g skip root next w']
  cases ht : (judge g skip w.pass.state r).taken with
  | none =>
    rw [ht] at hfinal
    obtain ⟨htaken, hmirrors⟩ := hoffered hfinal
    rw [htaken, ht]
    exact ⟨hmirrors, h.visited⟩
  | some place =>
    rw [ht] at hfinal
    dsimp only at hfinal ⊢
    by_cases hseen : place.1 ∈ w.visited
    · rw [if_pos hseen] at hfinal ⊢
      obtain ⟨htaken, hmirrors⟩ := hoffered hfinal
      rw [htaken, ht]
      dsimp only
      rw [h.visited, if_pos hseen]
      exact ⟨hmirrors, rfl⟩
    · rw [if_neg hseen] at hfinal ⊢
      have hfits := hw.enter hg (slot_of_judge ht) hseen
        ((act g skip w.pass (.offered r)).enter root place.1)
      obtain ⟨as, hrun, -⟩ := htrace place.1 _ hfits
      obtain ⟨htaken, hmirrors⟩ := hoffered (.of_later (hrun.later hvalid) hfinal)
      rw [htaken, ht]
      dsimp only
      rw [h.visited, if_neg hseen]
      exact hnext _ _ _ hfits ⟨hmirrors.enter root place.1, rfl⟩ hfinal

private theorem tryEdge_foldl_mirrors (hg : g.WellFormed) {root depth : Nat}
    {next : VarnodeId → Walk → Walk}
    (htrace : ∀ v w, Fits g depth w → ∃ as, Run g skip w.pass as (next v w).pass ∧
      FlowTrace g as ∧ (∀ r ∈ edges g v, .offered r ∈ as) ∧ Fits g depth (next v w))
    (hnext : ∀ v w w', Fits g depth w → WalkMirrors g final w w' →
      (next v w).pass.state.Precedes final → WalkMirrors g final (next v w) (next v w'))
    (todo : List EdgeRef) {w w' : Walk} (hw : Fits g (depth + 1) w) (h : WalkMirrors g final w w')
    (hfinal : (todo.foldl (tryEdge g skip root next) w).pass.state.Precedes final) :
    WalkMirrors g final (todo.foldl (tryEdge g skip root next) w)
      (todo.foldl (tryEdge g skip root next) w') := by
  induction todo generalizing w w' with
  | nil => exact h
  | cons r rest ih =>
    obtain ⟨as, hrun, -, -, hafter⟩ := tryEdge_trace root hg htrace hw r
    obtain ⟨bs, hrest, -⟩ := tryEdge_foldl_trace root hg htrace rest hafter
    have hlater := hrest.later (hrun.valid h.pass.valid)
    exact ih hafter (tryEdge_mirrors hg htrace hnext hw h (.of_later hlater hfinal)) hfinal

/-- A walk is replayed step by step. -/
theorem explore_mirrors (hg : g.WellFormed) (root depth v : Nat) {w w' : Walk}
    (hw : Fits g depth w) (h : WalkMirrors g final w w')
    (hfinal : (explore g skip root depth v w).pass.state.Precedes final) :
    WalkMirrors g final (explore g skip root depth v w) (explore g skip root depth v w') := by
  induction depth generalizing v w w' with
  | zero => exact h
  | succ depth ih =>
    exact tryEdge_foldl_mirrors hg (fun v _ hw => explore_trace hg root depth v hw)
      (fun v _ _ hw h hfinal => ih v hw h hfinal) (edges g v) hw h hfinal

private theorem propagate_mirrors (hg : g.WellFormed) {root : Nat} (hroot : root < g.varnodes.size)
    (h : Mirrors g final p p') (hfinal : (propagate g skip p root).state.Precedes final) :
    Mirrors g final (propagate g skip p root) (propagate g skip p' root) := by
  have hstart : WalkMirrors g final ⟨p.enter root root, [root]⟩ ⟨p'.enter root root, [root]⟩ :=
    ⟨h.enter root root, rfl⟩
  exact (explore_mirrors hg root g.varnodes.size root (.start hroot _) hstart hfinal).pass

/-- A fold of steps that keep a pass and its repetition in a relation keeps them in it, if the steps
are runs that keep what they need. -/
theorem foldl_mirrors (skip : Bool) {α σ : Type} {f : Pass → α → Pass} {f' : σ → α → σ}
    {R : Pass → σ → Prop} {P : Pass → Prop} {a : σ} {todo : List α}
    (hvalid : ∀ p a, R p a → p.state.Valid)
    (hkeep : ∀ p as q, P p → Run g skip p as q → P q)
    (hrun : ∀ p, P p → ∀ x ∈ todo, ∃ as, Run g skip p as (f p x))
    (hstep : ∀ p a, P p → R p a → ∀ x ∈ todo, (f p x).state.Precedes final →
      R (f p x) (f' a x))
    (hp : P p) (h : R p a) (hfinal : (todo.foldl f p).state.Precedes final) :
    R (todo.foldl f p) (todo.foldl f' a) := by
  induction todo generalizing p a with
  | nil => exact h
  | cons x rest ih =>
    have hrest : ∀ p, P p → ∀ y ∈ rest, ∃ as, Run g skip p as (f p y) :=
      fun p hp y hy => hrun p hp y (List.mem_cons_of_mem x hy)
    obtain ⟨as, hfirst⟩ := hrun p hp x List.mem_cons_self
    have hnext := hkeep p as _ hp hfirst
    obtain ⟨bs, hlast, -⟩ := foldl_trace skip (K := fun _ _ => True) (fun _ => trivial)
      (fun _ _ _ _ _ _ _ => trivial) hkeep
      (fun q hq y hy => (hrest q hq y hy).imp fun _ h => ⟨h, trivial⟩) hnext
    have hlater := hlast.later (hfirst.valid (hvalid p a h))
    exact ih hrest (fun q b hq hm y hy => hstep q b hq hm y (List.mem_cons_of_mem x hy)) hnext
      (hstep p a hp h x List.mem_cons_self (.of_later hlater hfinal)) hfinal

private theorem propagateAll_mirrors (hg : g.WellFormed) (h : Mirrors g final p p')
    (hfinal : (propagateAll g skip p).state.Precedes final) :
    Mirrors g final (propagateAll g skip p) (propagateAll g skip p') := by
  have hlt : ∀ v ∈ g.observables, v < g.varnodes.size := fun v hv =>
    Graph.WellFormed.lt_of_observable (hg.mem_observables.mp hv)
  refine foldl_mirrors skip (g := g) (R := Mirrors g final) (P := fun _ => True)
    (fun _ _ hm => hm.valid) (fun _ _ _ _ _ => trivial)
    (fun q _ v hv => ?_) (fun q q' _ hm v hv hlast => propagate_mirrors hg (hlt v hv) hm hlast)
    trivial h hfinal
  obtain ⟨as, hrun, -⟩ := propagate_trace skip hg q (hlt v hv)
  exact ⟨_, hrun⟩

/-! ## The later phases -/

private theorem mostSpecificFrom_mirrors (h : Mirrors g final p p') (hp : p.state.Precedes final)
    (index : Nat) (best : Option (Nat × VarnodeId)) (l : List VarnodeId) :
    mostSpecificFrom p'.state index best l = mostSpecificFrom p.state index best l := by
  induction l generalizing index best with
  | nil => cases best <;> rfl
  | cons v rest ih =>
    cases best with
    | none => exact ih _ _
    | some b =>
      rw [mostSpecificFrom, mostSpecificFrom, h.temporary, h.temporary,
        (h.types_extends hp).moreSpecific h.valid.types (h.valid.temporary v)
          (h.valid.temporary b.2)]
      exact ih _ _

private theorem unifyReturn_mirrors (hg : g.WellFormed) {t v : Nat} (ht : p.state.types.Has t)
    (hv : v ∈ returnedValues g) (size : Nat) (h : Mirrors g final p p')
    (hfinal : (unifyReturn g skip t size p v).state.Precedes final) :
    Mirrors g final (unifyReturn g skip t size p v) (unifyReturn g skip t size p' v) := by
  obtain ⟨as, hrun, -⟩ := unifyReturn_trace skip hg ht hv size
  have hext := h.types_extends (.of_later (hrun.later h.valid) hfinal)
  have hlt : v < g.varnodes.size := by
    obtain ⟨o, -, hin⟩ := mem_inputs_of_mem_returnedValues hv
    exact hg.lt_of_mem_inputs hin
  rw [unifyReturn] at hfinal
  rw [unifyReturn, unifyReturn, h.locked, h.temporary, hext.metatype ht]
  split
  · exact h
  · rename_i hfree
    rw [if_neg hfree] at hfinal
    split
    · exact h
    · rename_i hbool
      rw [if_neg hbool] at hfinal
      split
      · exact h
      · rename_i hne
        rw [if_neg hne] at hfinal
        exact propagate_mirrors hg hlt (h.setTemporary ht v .unifiedReturn) hfinal

/-- The unification of returned values is replayed. -/
theorem unifyReturns_mirrors (hg : g.WellFormed) (h : Mirrors g final p p')
    (hfinal : (unifyReturns g skip p).state.Precedes final) :
    Mirrors g final (unifyReturns g skip p) (unifyReturns g skip p') := by
  obtain ⟨t, as, hrun, -⟩ := unifyReturns_trace skip hg h.valid
  have hp := Precedes.of_later (hrun.later h.valid) hfinal
  rw [unifyReturns] at hfinal
  rw [unifyReturns, unifyReturns, mostSpecificFrom_mirrors h hp]
  split
  · exact h
  · rename_i hopen
    rw [if_neg hopen] at hfinal
    cases hbest : mostSpecificFrom p.state 0 none (returnedValues g) with
    | none => exact h
    | some best =>
      rw [hbest] at hfinal
      dsimp only at hfinal ⊢
      rw [h.temporary]
      refine foldl_mirrors skip (g := g) (R := Mirrors g final)
        (P := fun q => q.state.Valid ∧ q.state.types.Has (p.state.temporary best.2))
        (fun _ _ hm => hm.valid) (fun _ _ _ hP hrun => hrun.keeps_has hP) (fun q hq v hv => ?_)
        (fun q q' hq hm v hv hlast => ?_)
        ⟨h.valid, h.valid.temporary best.2⟩ h hfinal
      · obtain ⟨as, hrun, -⟩ := unifyReturn_trace skip hg hq.2
          (List.mem_of_mem_eraseIdx hv) (g.varnode best.2).size
        exact ⟨as, hrun⟩
      · exact unifyReturn_mirrors hg hq.2 (List.mem_of_mem_eraseIdx hv) _ hm hlast

private theorem aliasValue_mirrors (hg : g.WellFormed) {start : UInt64} {pointee size v : Nat}
    (hpointee : p.state.types.Has pointee) (hv : v ∈ coveredValues g start size)
    (h : Mirrors g final p p')
    (hfinal : (aliasValue g skip start pointee p v).state.Precedes final) :
    Mirrors g final (aliasValue g skip start pointee p v)
      (aliasValue g skip start pointee p' v) := by
  obtain ⟨as, hrun, -⟩ := aliasValue_trace skip hg ⟨h.valid, hpointee⟩ hv
  have hext := h.types_extends (.of_later (hrun.later h.valid) hfinal)
  rw [aliasValue] at hfinal
  rw [aliasValue, aliasValue, h.locked, hext.size hpointee]
  dsimp only at hfinal ⊢
  rw [hext.exactPiece h.valid.types hpointee]
  split
  · exact h
  · rename_i hfree
    rw [if_neg hfree] at hfinal
    split
    · exact h
    · rename_i hfits
      rw [if_neg hfits] at hfinal
      cases hpiece : p.state.types.exactPiece pointee
          (g.stackSpace.wrap ((g.varnode v).address.offset - start)).toNat (g.varnode v).size with
      | none => exact h
      | some piece =>
        rw [hpiece] at hfinal
        have hhas := h.valid.types.has_exactPiece hpointee hpiece
        dsimp only at hfinal ⊢
        rw [h.temporary, hext.moreSpecific h.valid.types hhas (h.valid.temporary v)]
        split
        · rename_i hmore
          rw [if_pos hmore] at hfinal
          simp only [Bool.or_eq_true, Bool.not_eq_true', not_or, Bool.not_eq_false] at hfree
          exact propagate_mirrors hg (Graph.WellFormed.lt_of_observable hfree.1.1)
            (h.setTemporary hhas v .stackAlias) hfinal
        · exact h

private theorem aliasReference_mirrors (hg : g.WellFormed) (reference : VarnodeId × UInt64)
    (h : Mirrors g final p p')
    (hfinal : (aliasReference g skip p reference).state.Precedes final) :
    Mirrors g final (aliasReference g skip p reference) (aliasReference g skip p' reference) := by
  obtain ⟨as, hrun, -⟩ := aliasReference_trace skip hg h.valid reference
  have hext := h.types_extends (.of_later (hrun.later h.valid) hfinal)
  have htype := h.valid.temporary reference.1
  rw [aliasReference_eq skip hg h.valid] at hfinal ⊢
  rw [aliasReference, h.temporary, hext.pointee? htype]
  cases hpointee : p.state.types.pointee? (p.state.temporary reference.1) with
  | none => exact h
  | some pointee =>
    have hhas := h.valid.types.has_pointee htype hpointee
    rw [hpointee] at hfinal
    dsimp only at hfinal ⊢
    rw [hext.metatype hhas, hext.size hhas]
    split
    · exact h
    · rename_i hknown
      rw [if_neg hknown] at hfinal
      -- the repeated pass never adds a type, so what it looked up last stays right
      refine (foldl_mirrors skip (g := g)
        (R := fun q (a : Aliasing) =>
          Mirrors g final q a.pass ∧ a.last.Sound a.pass.state.types pointee)
        (P := fun q => q.state.Valid ∧ q.state.types.Has pointee)
        (fun _ _ hm => hm.1.valid) (fun _ _ _ hP hrun => hrun.keeps_has hP) (fun q hq v hv => ?_)
        (fun q a hq hm v hv hlast => ?_) ⟨h.valid, hhas⟩ ⟨h, ?_⟩ hfinal).1
      · obtain ⟨as, hrun, -⟩ := aliasValue_trace skip hg hq hv
        exact ⟨as, hrun⟩
      · obtain ⟨hpass, hsound⟩ := aliasNext_spec (g := g) skip reference.2 hm.2 v
        have hmirrors := aliasValue_mirrors hg hq.2 hv hm.1 hlast
        rw [← hpass] at hmirrors
        refine ⟨hmirrors, ?_⟩
        rw [hmirrors.types, ← hm.1.types]
        exact hsound
      · rw [← hext.size hhas]
        exact Lookup.sound_self _ _

/-- The copies onto the frame are replayed. -/
theorem aliasFrame_mirrors (hg : g.WellFormed) (h : Mirrors g final p p')
    (hfinal : (aliasFrame g skip p).state.Precedes final) :
    Mirrors g final (aliasFrame g skip p) (aliasFrame g skip p') := by
  obtain ⟨as, hrun, -⟩ := aliasFrame_trace skip hg h.valid
  have hext := h.types_extends (.of_later (hrun.later h.valid) hfinal)
  rw [aliasFrame] at hfinal
  rw [aliasFrame, aliasFrame]
  cases hsome : g.spaceBase with
  | none => exact h
  | some base =>
    rw [hsome] at hfinal
    dsimp only at hfinal ⊢
    rw [h.base base hsome, hext.isSpacebasePointer h.valid.types (h.valid.committed base)]
    split
    · rename_i hpointer
      rw [if_pos hpointer] at hfinal
      refine foldl_mirrors skip (g := g) (R := Mirrors g final) (P := fun q => q.state.Valid)
        (fun _ _ hm => hm.valid) (fun _ _ _ hP hrun => hrun.valid hP) (fun q hq reference _ => ?_)
        (fun q q' _ hm reference _ hlast => aliasReference_mirrors hg reference hm hlast) h.valid h
        hfinal
      obtain ⟨as, hrun, -⟩ := aliasReference_trace skip hg hq reference
      exact ⟨as, hrun⟩
    · exact h

/-- A phase that may be left out is a run if it is one when it is not left out. -/
theorem optional_run (on : Bool) {f : Pass → Pass} (hrun : ∃ as, Run g skip p as (f p)) :
    ∃ as, Run g skip p as (if on then f p else p) := by
  cases on with
  | true => exact hrun
  | false => exact ⟨[], .nil⟩

/-- A phase that may be left out goes on alike if it does so when it is not left out. -/
theorem optional_mirrors (on : Bool) {f : Pass → Pass} (h : Mirrors g final p p')
    (hf : (f p).state.Precedes final → Mirrors g final (f p) (f p'))
    (hfinal : (if on then f p else p).state.Precedes final) :
    Mirrors g final (if on then f p else p) (if on then f p' else p') := by
  cases on with
  | true => exact hf hfinal
  | false => exact h

/-- All phases after the first guesses go on alike. -/
theorem recover_mirrors (hg : g.WellFormed) (c : Config) {s' : TypeState}
    (h : Mirrors g final (seedAll g { state := s }) (seedAll g { state := s' }))
    (hfinal : (recover c g s).state.Precedes final) :
    Mirrors g final (recover c g s) (recover c g s') := by
  obtain ⟨flows, hflows, -⟩ :=
    propagateAll_trace (skipsMerges c g) hg (seedAll g { state := s })
  have hpush : (propagateAll g (skipsMerges c g) (seedAll g { state := s })).state.Precedes final →
      Mirrors g final _ _ := propagateAll_mirrors hg h
  have hpushed := hflows.valid h.valid
  rw [recover] at hfinal
  rw [recover, recover]
  generalize propagateAll g (skipsMerges c g) (seedAll g { state := s }) = pushed
    at hpushed hpush hfinal ⊢
  generalize propagateAll g (skipsMerges c g) (seedAll g { state := s' }) = pushed' at hpush ⊢
  obtain ⟨returns, hreturns⟩ : ∃ as, Run g (skipsMerges c g) pushed as _ :=
    optional_run c.propagateAcrossReturns <| by
      obtain ⟨t, as, hrun, -⟩ := unifyReturns_trace (skipsMerges c g) hg hpushed
      exact ⟨as, hrun⟩
  have hunified := hreturns.valid hpushed
  obtain ⟨frames, hframes⟩ := optional_run c.propagateSpacebase <| by
    obtain ⟨as, hrun, -⟩ := aliasFrame_trace (skipsMerges c g) hg hunified
    exact ⟨as, hrun⟩
  -- every phase precedes the final state, so the phases mirror each other one after the other
  have hunifiedFinal := Precedes.of_later (hframes.later hunified) hfinal
  have hpushedFinal := Precedes.of_later (hreturns.later hpushed) hunifiedFinal
  have hmirrors := optional_mirrors c.propagateAcrossReturns (hpush hpushedFinal)
    (unifyReturns_mirrors hg (hpush hpushedFinal)) hunifiedFinal
  exact optional_mirrors c.propagateSpacebase hmirrors (aliasFrame_mirrors hg hmirrors) hfinal

end Recovery

end TypeRecovery
