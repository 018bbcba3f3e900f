import TypeRecovery.Proofs.DataType.Construction
import TypeRecovery.Proofs.Graph.References
import TypeRecovery.Proofs.Recovery.Round

/-!
# What a call leaves alone

A call never touches the graph. It keeps every lock together with the type under it, it adds types
and choices without altering those that are there, and it locks no value but an input to which a
recommendation applies. These facts compose, so they hold between any two moments of a sequence of
calls.
-/

namespace TypeRecovery

/-- The types of a table that extends another start with the types of the other. -/
theorem TypeTable.Extends.isPrefix {t u : TypeTable} (h : t.Extends u) :
    t.types.toList <+: u.types.toList := by
  rw [List.prefix_iff_getElem?]
  intro id hid
  have hid' : id < t.types.size := by simpa using hid
  rw [Array.getElem?_toList, h.old id hid', Array.getElem?_eq_getElem hid']
  rfl

/-- A recommendation suggests a type for the input that it names by address and size. -/
def Graph.Recommends (g : Graph) (t : TypeTable) (v : VarnodeId) (type : TypeId) : Prop :=
  ∃ x ∈ g.recommendations, x.type = type ∧ g.findInput? (t.size type) x.address = some v

namespace Recovery

open TypeTable TypeState

variable {g : Graph} {s s' : TypeState}

/-! ## Recommendations -/

/-- What is known of a value is what was known before, or the value was free and is now locked to a
type that is recommended for it. -/
def KeptOrLocked (g : Graph) (todo : List Recommendation) (s s' : TypeState) (v : VarnodeId) :
    Prop :=
  s'.typing v = s.typing v ∨
    s.locked v = false ∧ s'.locked v = true ∧
      ∃ x ∈ todo, g.findInput? (s.types.size x.type) x.address = some v ∧
        s'.committed v = x.type

/-- A recommendation leaves a value as it was, or locks it to the recommended type. -/
theorem applyRecommendation_keptOrLocked (s : TypeState × Nat) (x : Recommendation) (v : Nat) :
    KeptOrLocked g [x] s.1 (applyRecommendation g s x).1 v := by
  rw [applyRecommendation]
  cases hx : g.findInput? (s.1.types.size x.type) x.address with
  | none => exact Or.inl rfl
  | some w =>
    dsimp only
    split
    · exact Or.inl rfl
    · rename_i hfree
      by_cases hv : v = w ∧ w < s.1.values.size
      · refine Or.inr ⟨?_, ?_, x, List.mem_singleton_self x, ?_, ?_⟩
        · rw [hv.1]
          exact Bool.eq_false_iff.mpr hfree
        · rw [locked_lock, if_pos hv]
        · rw [hv.1]
          exact hx
        · rw [committed_lock, if_pos hv]
      · left
        rw [lock, typing_modify, if_neg hv]

/-- Recommendations leave a value as it was, or one of them locks it to its type. -/
theorem applyRecommendation_foldl_keptOrLocked (todo : List Recommendation) (s : TypeState × Nat)
    (v : Nat) : KeptOrLocked g todo s.1 (todo.foldl (applyRecommendation g) s).1 v := by
  induction todo generalizing s with
  | nil => exact Or.inl rfl
  | cons x rest ih =>
    have htypes := (applyRecommendation_locks (g := g) s x).types
    have hrest := ih (applyRecommendation g s x)
    rw [List.foldl_cons]
    generalize rest.foldl (applyRecommendation g) (applyRecommendation g s x) = last at hrest ⊢
    rcases applyRecommendation_keptOrLocked (g := g) s x v
      with hsame | ⟨hfree, hlocked, y, hy, hfor⟩
    · rcases hrest with hsame' | ⟨hfree, hlocked, y, hy, hfor⟩
      · exact Or.inl (hsame'.trans hsame)
      · refine Or.inr ⟨?_, hlocked, y, List.mem_cons_of_mem x hy, ?_⟩
        · rwa [locked, ← hsame]
        · rwa [← htypes]
    · -- a value that is locked keeps its type through the remaining recommendations
      rcases hrest with hsame' | ⟨hfree', -⟩
      · refine Or.inr ⟨hfree, ?_, y, List.mem_cons.mpr (Or.inl (List.mem_singleton.mp hy)),
          hfor.1, ?_⟩
        · rw [locked, hsame']
          exact hlocked
        · rw [committed, hsame']
          exact hfor.2
      · rw [hfree'] at hlocked
        cases hlocked

end Recovery

namespace Routine

open Recovery TypeState

variable {r : Routine} {c : Config}

/-- The recommendations leave a value alone, or they lock it to a type recommended for it. -/
theorem typing_recommended (r : Routine) (v : Nat) :
    r.recommended.typing v = r.state.typing v ∨
      r.state.locked v = false ∧ r.recommended.locked v = true ∧
        r.graph.Recommends r.state.types v (r.recommended.committed v) := by
  rcases applyRecommendation_foldl_keptOrLocked (g := r.graph) r.graph.recommendations
    (r.state, 0) v with hsame | ⟨hfree, hlocked, x, hx, hfor, htype⟩
  · exact Or.inl hsame
  · refine Or.inr ⟨hfree, hlocked, x, hx, htype.symm, ?_⟩
    rw [recommended, applyRecommendations, htype]
    exact hfor

/-! ## What one call keeps -/

/-- The second function is the first at a later moment of recovery. -/
structure Keeps (r r' : Routine) : Prop where
  /-- The graph is the same. -/
  graph : r'.graph = r.graph
  /-- The types are where they were, and new ones come after them. -/
  types : r.state.types.Extends r'.state.types
  /-- Fields that were chosen stay chosen. -/
  choices : ∀ (o : Nat) slot field, r.state.choice? o slot = some field →
    r'.state.choice? o slot = some field
  /-- Locked values stay locked, with the same committed type. -/
  locked : ∀ v, r.state.locked v = true →
    r'.state.locked v = true ∧ r'.state.committed v = r.state.committed v
  /-- A value that is locked and was not has a type that is recommended for it. -/
  recommended : ∀ v, r.state.locked v = false → r'.state.locked v = true →
    r.graph.Recommends r.state.types v (r'.state.committed v)

/-- No time has to pass. -/
theorem Keeps.refl (r : Routine) : r.Keeps r where
  graph := rfl
  types := .refl _
  choices _ _ _ h := h
  locked _ h := ⟨h, rfl⟩
  recommended v hfree hlocked := by
    rw [hfree] at hlocked
    cases hlocked

/-- A moment after a later one is later. -/
theorem Keeps.trans {r' r'' : Routine} (h : r.Keeps r') (h' : r'.Keeps r'')
    (hmentioned : r.graph.TypesIn r.state.types) : r.Keeps r'' where
  graph := h'.graph.trans h.graph
  types := h.types.trans h'.types
  choices o slot field hf := h'.choices o slot field (h.choices o slot field hf)
  locked v hv := by
    obtain ⟨hlocked, hcommitted⟩ := h.locked v hv
    exact ⟨(h'.locked v hlocked).1, (h'.locked v hlocked).2.trans hcommitted⟩
  recommended v hfree hlocked := by
    cases hmiddle : r'.state.locked v with
    | true =>
      rw [(h'.locked v hmiddle).2]
      exact h.recommended v hfree hmiddle
    | false =>
      -- recommended types are old, so their sizes are those of the first table
      obtain ⟨x, hx, htype, hfound⟩ := h'.recommended v hmiddle hlocked
      rw [h.graph] at hx hfound
      have hold : r.state.types.Has (r''.state.committed v) :=
        htype ▸ hmentioned.recommendations x hx
      exact ⟨x, hx, htype, by rwa [h.types.size hold] at hfound⟩

/-- A change beside the graph and the types keeps everything. -/
theorem Keeps.of_parts {r' : Routine} (hgraph : r'.graph = r.graph) (hstate : r'.state = r.state) :
    r.Keeps r' where
  graph := hgraph
  types := hstate ▸ .refl _
  choices := hstate ▸ (Keeps.refl r).choices
  locked := hstate ▸ (Keeps.refl r).locked
  recommended := hstate ▸ (Keeps.refl r).recommended

/-- A round leads to a later moment of recovery. -/
theorem WellFormed.keeps_runRound (hr : r.WellFormed) (c : Config) :
    r.Keeps (r.runRound c).routine := by
  by_cases hpos : 0 < r.graph.varnodes.size
  · obtain ⟨hlocks, -⟩ := hr.recommended_spec hpos
    obtain ⟨hlater, -⟩ := hr.pass_later hpos c
    obtain ⟨htypes, hchoices, -, -⟩ := commitAll_frame r.graph (r.pass c).state
    have hlocked := hr.locked_runRound hpos c
    refine ⟨graph_runRound, ?_, fun o slot field hf => ?_, fun v hv => ?_, fun v hfree hv => ?_⟩
    · rw [state_runRound, htypes, ← hlocks.types]
      exact hlater.types.extends
    · rw [state_runRound, choice?, hchoices]
      refine hlater.choices o slot field ?_
      rw [choice?, hlocks.choices]
      exact hf
    · rcases r.typing_recommended v with hsame | ⟨hfree, -⟩
      · have hkept : r.recommended.locked v = true := by
          rw [TypeState.locked, hsame]
          exact hv
        refine ⟨(hlocked v).trans hkept,
          (hr.committed_runRound_of_locked hpos hkept c).trans ?_⟩
        rw [TypeState.committed, hsame]
        rfl
      · rw [hfree] at hv
        cases hv
    · rw [hlocked] at hv
      rw [hr.committed_runRound_of_locked hpos hv]
      rcases r.typing_recommended v with hsame | ⟨-, -, hfor⟩
      · rw [TypeState.locked, hsame] at hv
        rw [TypeState.locked, hv] at hfree
        cases hfree
      · exact hfor
  · exact .of_parts graph_runRound
      (hr.state_runRound_of_empty (Nat.eq_zero_of_not_pos hpos) c)

/-- A call leads to a later moment of recovery. -/
theorem WellFormed.keeps_call (hr : r.WellFormed) (a : Call) : r.Keeps (r.call a) := by
  cases a with
  | reset => exact .of_parts rfl rfl
  | apply c =>
    rw [call, Routine.apply]
    split
    · exact .refl r
    · split
      · exact .refl r
      · split
        · exact .of_parts rfl rfl
        · exact hr.keeps_runRound c

/-- A call keeps a function well-formed. -/
theorem WellFormed.call (hr : r.WellFormed) (a : Call) : (r.call a).WellFormed := by
  cases a with
  | apply c => exact hr.apply c
  | reset => exact hr.reset

/-- Calls keep a function well-formed. -/
theorem WellFormed.calls (hr : r.WellFormed) (sequence : List Call) :
    (r.calls sequence).WellFormed :=
  List.foldlRecOn (motive := WellFormed) sequence _ hr fun _ hx a _ => hx.call a

/-! ## What a sequence of calls keeps -/

/-- Calls lead to a later moment of recovery. -/
theorem WellFormed.keeps_calls (hr : r.WellFormed) (sequence : List Call) :
    r.Keeps (r.calls sequence) := by
  induction sequence generalizing r with
  | nil => exact .refl r
  | cons a rest ih => exact (hr.keeps_call a).trans (ih (hr.call a)) hr.mentioned

/-- Calls can be cut anywhere. -/
theorem calls_append (r : Routine) (earlier later : List Call) :
    r.calls (earlier ++ later) = (r.calls earlier).calls later := List.foldl_append

/-- What stays between any two moments of a sequence of calls. The graph is the same. The table of
types only gets longer, and no choice of a field is altered. A locked value stays locked, with the
same committed type. A value that got locked is an input for whose address and size a type is
recommended, and it has this type. -/
theorem WellFormed.calls_frame (hr : r.WellFormed) (hg : r.graph.Indexed)
    (earlier later : List Call) :
    (r.calls (earlier ++ later)).graph = (r.calls earlier).graph ∧
    (r.calls earlier).state.types.types.toList <+:
      (r.calls (earlier ++ later)).state.types.types.toList ∧
    (∀ (o : Nat) slot field, (r.calls earlier).state.choice? o slot = some field →
      (r.calls (earlier ++ later)).state.choice? o slot = some field) ∧
    (∀ v, (r.calls earlier).state.locked v = true →
      (r.calls (earlier ++ later)).state.locked v = true ∧
        (r.calls (earlier ++ later)).state.committed v = (r.calls earlier).state.committed v) ∧
    ∀ v, (r.calls earlier).state.locked v = false →
      (r.calls (earlier ++ later)).state.locked v = true →
        (r.graph.varnode v).input = true ∧
          ∃ x ∈ r.graph.recommendations, x.address = (r.graph.varnode v).address ∧
            (r.calls earlier).state.types.size x.type = (r.graph.varnode v).size ∧
            (r.calls (earlier ++ later)).state.committed v = x.type := by
  rw [calls_append]
  have hkeeps := (hr.calls earlier).keeps_calls later
  refine ⟨hkeeps.graph, hkeeps.types.isPrefix, hkeeps.choices, hkeeps.locked, ?_⟩
  intro v hfree hlocked
  obtain ⟨x, hx, htype, hfound⟩ := hkeeps.recommended v hfree hlocked
  rw [graph_calls] at hx hfound
  obtain ⟨hinput, haddress, hsize⟩ := hg.findInput? hfound
  exact ⟨hinput, x, hx, haddress.symm, by rw [htype, hsize], htype.symm⟩

/-- An input for which a type is recommended is copied to a value with this type. -/
def suggested : Routine :=
  let types := (TypeTable.empty 8).perform (.base 4 .int)
  let values := (Routine.empty "f" .simple 2 types).newInput 4 ⟨1, 0⟩ |>.newVarnode 4 ⟨1, 8⟩
  (values.modifyState fun s => s.lock 1 0).modifyGraph fun g =>
    (g.linkOp { opcode := .copy, address := ⟨1, 0⟩, inputs := [0], output := some 1 }
      ).addRecommendation ⟨⟨1, 0⟩, 0⟩

/-- The copy stays locked, and the input gets locked to the recommended type. -/
theorem suggested_calls_frame :
    suggested.WellFormed ∧ suggested.graph.Indexed ∧
      (suggested.state.locked 1 = true ∧
        (suggested.calls [.reset, .apply {}]).state.locked 1 = true ∧
        (suggested.calls [.reset, .apply {}]).state.committed 1 = suggested.state.committed 1) ∧
      (suggested.state.locked 0 = false ∧
        (suggested.calls [.reset, .apply {}]).state.locked 0 = true ∧
        (suggested.graph.varnode 0).input = true ∧
        ∃ x ∈ suggested.graph.recommendations, x.address = (suggested.graph.varnode 0).address ∧
          suggested.state.types.size x.type = (suggested.graph.varnode 0).size ∧
          (suggested.calls [.reset, .apply {}]).state.committed 0 = x.type) := by
  have hwf : suggested.WellFormed := by decide +kernel
  have hindexed : suggested.graph.Indexed := by decide +kernel
  have hlocked : suggested.state.locked 1 = true := by decide +kernel
  have hfree : suggested.state.locked 0 = false := by decide +kernel
  have hnew : (suggested.calls [.reset, .apply {}]).state.locked 0 = true := by decide +kernel
  obtain ⟨-, -, -, hkept, hadded⟩ := hwf.calls_frame hindexed [] [.reset, .apply {}]
  exact ⟨hwf, hindexed, ⟨hlocked, hkept 1 hlocked⟩, hfree, hnew, hadded 0 hfree hnew⟩

end Routine

end TypeRecovery
