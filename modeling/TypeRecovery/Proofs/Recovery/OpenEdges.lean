import TypeRecovery.Proofs.Recovery.Closure

/-!
# Edges that are left open

Every value that takes part in type recovery is entered in a round, and then its edges are offered.
An edge that still carries something more specific when the round is over was opened again since its
source was entered for the last time, or it leaves an operand that the op has at an earlier position
as well. Traversals leave a value through its first position only. From a later one nothing more
flows, unless unions are resolved there, or the op treats its positions differently.
-/

namespace TypeRecovery

/-! ## Repeated operands -/

/-- The slot itself, unless it is operand `j`: then it is operand `i`. -/
def Slot.avoiding (slot : Slot) (j i : Nat) : Slot := if slot = .input j then .input i else slot

/-- The edge that leaves operand `j` instead of operand `i`, where both operands are one value. -/
def Edge.earlier (e : Edge) (i j : Nat) : Edge :=
  { e with inSlot := .input j, outSlot := e.outSlot.avoiding j i }

/-- The place of the edge that leaves operand `j` instead of operand `i`. -/
def EdgeRef.earlier (r : EdgeRef) (i j : Nat) : EdgeRef :=
  ⟨r.op, .input j, r.outSlot.avoiding j i⟩

/-- The slot that avoids an operand is not that operand. -/
theorem Slot.avoiding_ne (slot : Slot) {i j : Nat} (h : j ≠ i) :
    .input j ≠ slot.avoiding j i := by
  rw [avoiding]
  split
  · exact fun heq => h (Slot.input.inj heq)
  · rename_i hother
    exact fun heq => hother heq.symm

/-- Avoiding an operand turns operands into operands only. -/
theorem Slot.isInput_avoiding (slot : Slot) (i j : Nat) :
    (slot.avoiding j i).isInput = slot.isInput := by
  rw [avoiding]
  split
  · rename_i h
    rw [h]
    rfl
  · rfl

/-- If both operands are one value, the same value is found at the slot that avoids one of them. -/
theorem Op.at?_avoiding {op : Op} {v i j : Nat} (hi : op.input? i = some v)
    (hj : op.input? j = some v) (slot : Slot) : op.at? (slot.avoiding j i) = op.at? slot := by
  rw [Slot.avoiding]
  split
  · rename_i hslot
    rw [hslot]
    exact hi.trans hj.symm
  · rfl

namespace Transfer

variable {g : Graph} {s : TypeState} {e : Edge} {i j : Nat}

/-- An edge to an earlier operand is between operands if the edge was. -/
theorem betweenInputs_earlier (hin : e.inSlot = .input i) :
    (e.earlier i j).betweenInputs = e.betweenInputs := by
  rw [Edge.betweenInputs, Edge.betweenInputs, Edge.earlier, hin]
  dsimp only
  rw [Slot.isInput_avoiding]
  rfl

/-- From an operand that is no base a pointer computation carries nothing new. -/
theorem sumEdge_of_pos (hop : e.op.opcode = .ptrAdd ∨ e.op.opcode = .ptrSub)
    (hin : e.inSlot = .input i) (hi : 0 < i) (hb : ¬e.betweenInputs = true)
    (hat : e.op.at? e.outSlot = some e.dest) : sumEdge g s e = ⟨s.temporary e.dest, s.types⟩ := by
  have hout : e.op.output = some e.dest := by
    cases ho : e.outSlot with
    | output => rw [ho] at hat; exact hat
    | input k => simp [Edge.betweenInputs, hin, ho, Slot.isInput] at hb
  have haddend (size : Nat) : addend g s e.op i size = .other := by
    rcases hop with hop | hop
    · rw [addend, hop]
      exact if_neg (Nat.ne_of_gt hi)
    · rw [addend, hop]
      exact if_neg (Nat.ne_of_gt hi)
  rw [sumEdge, hin]
  dsimp only
  rw [sum, hout, Option.map_some, Option.getD_some]
  cases s.types.pointee? e.type with
  | none => rfl
  | some pointee =>
    dsimp only
    rw [haddend]

/-- From an operand that is no base pointer arithmetic carries nothing, or what is there. -/
theorem ptrSub_of_pos (hop : e.op.opcode = .ptrAdd ∨ e.op.opcode = .ptrSub)
    (hin : e.inSlot = .input i) (hi : 0 < i) (hat : e.op.at? e.outSlot = some e.dest) :
    ptrSub g s e = none ∨ ptrSub g s e = some ⟨s.temporary e.dest, s.types⟩ := by
  rw [ptrSub]
  split
  · exact Or.inl rfl
  · rename_i hb
    rw [sumEdge_of_pos hop hin hi (fun h => hb (Or.inl h)) hat]
    exact Or.inr rfl

/-- An addition of a value to itself adds the same at both positions. -/
theorem intAdd_repeated (hop : e.op.opcode = .intAdd) (hin : e.inSlot = .input 1)
    (hout : e.outSlot ≠ .input 1) (hzero : e.op.input? 0 = some e.source)
    (hone : e.op.input? 1 = some e.source) :
    intAdd g s e = none ∨ intAdd g s e = intAdd g s (e.earlier 1 0) := by
  have haddend (size : Nat) : addend g s e.op 1 size = addend g s e.op 0 size := by
    simp only [addend, hop, plainAddend, if_true, if_neg Nat.one_ne_zero, hzero, hone]
  have hsum : sumEdge g s e = sumEdge g s (e.earlier 1 0) := by
    rw [sumEdge, hin, sumEdge, Edge.earlier]
    dsimp only
    rw [sum, sum]
    simp only [haddend]
    rfl
  by_cases hptr : s.types.metatype e.type = .ptr
  · have hptr' : s.types.metatype (e.earlier 1 0).type = .ptr := hptr
    rw [intAdd, intAdd, if_pos hptr, if_pos hptr', betweenInputs_earlier hin, hsum]
    exact Or.inr rfl
  · -- integers flow to operand 1 only, and that is where this edge comes from
    rw [intAdd, if_neg hptr]
    split
    · rw [if_neg fun h => hout h.1]
      exact Or.inl rfl
    · exact Or.inl rfl

/-- An edge from a repeated operand carries nothing, or the type that its destination holds, or what
the edge from an earlier position of the operand carries. Loads and stores are left out, and so are
the operands of additions and indirect effects from the third one on. -/
theorem transfer_repeated (hin : e.inSlot = .input i) (hj : j < i) (hout : e.outSlot ≠ .input i)
    (hi : e.op.input? i = some e.source) (hj' : e.op.input? j = some e.source)
    (hat : e.op.at? e.outSlot = some e.dest) (hload : e.op.opcode ≠ .load)
    (hstore : e.op.opcode ≠ .store)
    (htwo : e.op.opcode = .intAdd ∨ e.op.opcode = .indirect → i < 2) :
    transfer g s e = none ∨ transfer g s e = some ⟨s.temporary e.dest, s.types⟩ ∨
      transfer g s e = transfer g s (e.earlier i j) := by
  have hpos : 0 < i := Nat.zero_lt_of_lt hj
  have hbetween := betweenInputs_earlier (j := j) hin
  have hcomparison : comparison g s.types e = comparison g s.types (e.earlier i j) := by
    rw [comparison, comparison, hbetween]
    rfl
  have hsigned : signedComparison s.types e = signedComparison s.types (e.earlier i j) := by
    rw [signedComparison, signedComparison, hbetween]
    rfl
  have hcopy : copy g s.types e = copy g s.types (e.earlier i j) := by
    rw [copy, copy, hbetween]
    rfl
  unfold transfer
  rw [show (e.earlier i j).op = e.op from rfl]
  split
  all_goals rename_i hop
  · exact Or.inr (Or.inr hcopy)
  · exact Or.inr (Or.inr hcopy)
  · obtain rfl : i = 1 := by have := htwo (Or.inr hop); omega
    left
    rw [indirect, if_pos]
    simp [Edge.touchesInput, hin]
  · exact Or.inr (Or.inr hcomparison)
  · exact Or.inr (Or.inr hcomparison)
  · exact Or.inr (Or.inr hcomparison)
  · exact Or.inr (Or.inr hcomparison)
  · exact Or.inr (Or.inr hsigned)
  · exact Or.inr (Or.inr hsigned)
  · exact absurd hop hload
  · exact absurd hop hstore
  · obtain rfl : i = 1 := by have := htwo (Or.inl hop); omega
    obtain rfl : j = 0 := by omega
    exact (intAdd_repeated hop hin hout hj' hi).imp_right Or.inr
  · rw [ptrAdd]
    split
    · exact Or.inl rfl
    · exact (ptrSub_of_pos (Or.inl hop) hin hpos hat).imp_right Or.inl
  · exact (ptrSub_of_pos (Or.inr hop) hin hpos hat).imp_right Or.inl
  · left
    rw [subpiece, if_neg]
    rintro ⟨hzero, -⟩
    rw [hin] at hzero
    exact absurd (Slot.input.inj hzero) (Nat.ne_of_gt hpos)
  · exact Or.inl rfl

end Transfer

/-- An operand has a first position. -/
theorem Op.exists_slotOf? {op : Op} {v i : Nat} (h : op.input? i = some v) :
    ∃ j ≤ i, op.slotOf? v = some j ∧ op.input? j = some v := by
  have hi := List.getElem?_eq_some_iff.mp h
  obtain ⟨hlt, hv⟩ := hi
  cases hj : op.slotOf? v with
  | none =>
    have hnone := List.findIdx?_eq_none_iff.mp hj v (hv ▸ List.getElem_mem hlt)
    simp at hnone
  | some j =>
    refine ⟨j, ?_, rfl, Graph.input?_of_slotOf? hj⟩
    obtain ⟨_, _, hbefore⟩ := List.findIdx?_eq_some_iff_getElem.mp hj
    by_contra hlater
    have hnot := hbefore i (Nat.lt_of_not_le hlater)
    simp [hv] at hnot

namespace Recovery

open TypeTable TypeState

variable {g : Graph} {skip : Bool} {s : TypeState} {r : EdgeRef} {types : TypeTable}
  {v dest i j : Nat}

/-- An edge that leaves an operand which the op has at an earlier position as well. No traversal
follows it, and it may carry more than the edges from the first position: if the type of the operand
is resolved at each position for itself, if the op is a load or a store, or if the position is a
third or a later one of an addition or an indirect effect. -/
def Neglected (g : Graph) (s : TypeState) (r : EdgeRef) : Prop :=
  ∃ i v, r.inSlot = .input i ∧ (g.op r.op).input? i = some v ∧ (g.op r.op).slotOf? v ≠ some i ∧
    (s.types.needsResolution (s.temporary v) = true ∨ (g.op r.op).opcode = .load ∨
      (g.op r.op).opcode = .store ∨
      2 ≤ i ∧ ((g.op r.op).opcode = .intAdd ∨ (g.op r.op).opcode = .indirect))

/-- What is neglected depends on the temporary types only. -/
theorem Neglected.congr {s' : TypeState} (h : Neglected g s r) (htypes : s'.types = s.types)
    (htemporary : ∀ v, s'.temporary v = s.temporary v) : Neglected g s' r := by
  obtain ⟨i, v, hin, hi, hlater, hreason⟩ := h
  exact ⟨i, v, hin, hi, hlater, by rw [htypes, htemporary]; exact hreason⟩

/-- Every edge from the first position of an operand, or from the result, is one of the edges along
which traversals leave the value. -/
theorem mem_edges (hg : g.WellFormed) (hin : (g.op r.op).at? r.inSlot = some v)
    (hout : (g.op r.op).at? r.outSlot = some dest) (hne : r.inSlot ≠ r.outSlot)
    (hfirst : ∀ i, r.inSlot = .input i → (g.op r.op).slotOf? v = some i) : r ∈ edges g v := by
  obtain ⟨o, inSlot, outSlot⟩ := r
  dsimp only at hin hout hne hfirst
  have hinputs {slot : Slot} {k : Nat} (hk : outSlot = .input k) :
      ⟨o, slot, outSlot⟩ ∈ edgesToInputs g o slot := by
    subst hk
    exact List.mem_map.mpr ⟨k, List.mem_range.mpr (List.getElem?_eq_some_iff.mp hout).1, rfl⟩
  rw [edges, List.mem_append]
  cases inSlot with
  | output =>
    right
    rw [(hg.writes o v).mp hin, Option.elim_some]
    cases outSlot with
    | output => exact absurd rfl hne
    | input k => exact hinputs rfl
  | input i =>
    left
    have hreader := (hg.reads o v).mp (Graph.mem_inputs_of_input? hin)
    refine List.mem_flatMap.mpr ⟨o, hreader, ?_⟩
    rw [readerEdges, hfirst i rfl]
    dsimp only
    cases outSlot with
    | output =>
      have hsome : (g.op o).output = some dest := hout
      simp [hsome]
    | input k => exact List.mem_append_right _ (hinputs rfl)

/-- Nothing is taken along an edge from a slot to itself. -/
theorem taken_judge_of_eq (hsame : r.inSlot = r.outSlot) : (judge g skip s r).taken = none := by
  rcases slots_cases g r with ⟨source, dest, hin, hout⟩ | hmissing
  · rw [judge_of_slots hin hout]
    dsimp only
    rw [if_neg]
    simp [admits, edgeOf, hsame]
  · rw [judge_of_missing hmissing]

/-- The edge of an earlier slot is the earlier edge. -/
theorem edgeOf_earlier (t : Nat) :
    edgeOf g (r.earlier i j) v dest t = (edgeOf g r v dest t).earlier i j := rfl

/-- From an earlier position an edge is admitted as from a later one. -/
theorem admits_earlier {e : Edge} (hin : e.inSlot = .input i) (hout : e.outSlot ≠ .input i)
    (hne : j ≠ i) : admits g s skip (e.earlier i j) = admits g s skip e := by
  have hearlier := e.outSlot.avoiding_ne hne
  have hlater : e.inSlot ≠ e.outSlot := by
    rw [hin]
    exact hout.symm
  rw [admits, admits, Edge.earlier]
  dsimp only
  rw [Slot.isInput_avoiding, decide_eq_true hearlier, decide_eq_true hlater]

/-- An edge from a repeated operand is closed if the edge from an earlier position of the operand
is, unless it is neglected. -/
theorem Closed.repeated (h : Closed g skip s (r.earlier i j)) (hin : r.inSlot = .input i)
    (hi : (g.op r.op).input? i = some v) (hj : (g.op r.op).input? j = some v) (hlt : j < i)
    (hout : (g.op r.op).at? r.outSlot = some dest) (hne : r.outSlot ≠ .input i)
    (hfirst : (g.op r.op).slotOf? v = some j) (hnot : ¬Neglected g s r) : Closed g skip s r := by
  have hreason := fun h => hnot ⟨i, v, hin, hi, by rw [hfirst]; simp; omega, h⟩
  have hflow (slot : Slot) : flowingType s v r.op slot = (s.temporary v, s) :=
    if_neg fun hneeds => hreason (Or.inl hneeds)
  have hin' : (g.op r.op).at? r.inSlot = some v := by rw [hin]; exact hi
  have hj' : (g.op (r.earlier i j).op).at? (r.earlier i j).inSlot = some v := hj
  have hout' : (g.op (r.earlier i j).op).at? (r.earlier i j).outSlot = some dest :=
    (Op.at?_avoiding hi hj r.outSlot).trans hout
  have hadmits : admits g s skip ((edgeOf g r v dest (s.temporary v)).earlier i j) =
      admits g s skip (edgeOf g r v dest (s.temporary v)) :=
    admits_earlier hin hne (Nat.ne_of_lt hlt)
  have hcarries := Transfer.transfer_repeated (g := g) (s := s)
    (e := edgeOf g r v dest (s.temporary v)) hin hlt hne hi hj hout
    (fun hload => hreason (Or.inr (Or.inl hload)))
    (fun hstore => hreason (Or.inr (Or.inr (Or.inl hstore))))
    (fun hop => Nat.lt_of_not_le fun htwo => hreason (Or.inr (Or.inr (Or.inr ⟨htwo, hop⟩))))
  rw [Closed, judge_of_slots hj' hout'] at h
  rw [Closed, judge_of_slots hin' hout]
  rw [hflow r.inSlot]
  rw [show flowingType s v (r.earlier i j).op (r.earlier i j).inSlot = _ from hflow (.input j)] at h
  dsimp only at h ⊢
  rw [edgeOf_earlier] at h
  split
  · rename_i hadmitted
    rw [if_pos (hadmits.trans hadmitted)] at h
    rcases hcarries with hnone | hheld | hsame
    · rw [hnone]
    · rw [hheld]
      simp only [edgeOf, moreSpecific_iff, order_self]
      rfl
    · rw [hsame]
      exact h
  · rfl

/-- What opens the edge from an earlier position of an operand opens the edge from a later one, too,
unless that one is neglected. -/
theorem Reopens.of_earlier {event : Event} (h : Reopens g types (r.earlier i j) event)
    (hin : r.inSlot = .input i) (hi : (g.op r.op).input? i = some v)
    (hj : (g.op r.op).input? j = some v) (hlt : j < i)
    (hfirst : (g.op r.op).slotOf? v = some j) (hnot : ¬Neglected g s r) :
    Reopens g types r event := by
  have hreason := fun h => hnot ⟨i, v, hin, hi, by rw [hfirst]; simp; omega, h⟩
  have hsource {old new : TypeId} {cause : Cause} : Reopens g types r (.changed v old new cause) :=
    .source (by rw [hin]; exact hi)
  cases h with
  | source hv =>
    obtain rfl := Option.some.inj (hj.symm.trans hv)
    exact hsource
  | blurred hv hless => exact .blurred ((Op.at?_avoiding hi hj r.outSlot).symm.trans hv) hless
  | resized _ haccess =>
    exact (hreason (Or.inr (haccess.imp_right Or.inl))).elim
  | addend hop _ hv =>
    -- both operands of the addition are the source
    have htwo : i < 2 := Nat.lt_of_not_le fun htwo =>
      hreason (Or.inr (Or.inr (Or.inr ⟨htwo, Or.inl hop⟩)))
    obtain rfl : i = 1 := by omega
    obtain rfl : j = 0 := by omega
    obtain rfl := Option.some.inj (hi.symm.trans hv)
    exact hsource

/-- An edge that is not neglected is closed at the end of a run in which entered values offer their
edges, if no event after some entry of its source opens it. -/
theorem Run.closed_of_source {p q : Pass} {as : List Action} (h : Run g skip p as q)
    (hp : p.state.Valid) (hg : g.WellFormed) (hcomplete : Complete g as)
    (hsize : p.state.values.size = g.varnodes.size) {before after : List Event} {root : Nat}
    (hentered : q.events.toList = before ++ .entered root v :: after)
    (hbefore : .entered root v ∉ p.events.toList) (hin : (g.op r.op).at? r.inSlot = some v)
    (hne : r.inSlot ≠ r.outSlot) (hnot : ¬Neglected g q.state r)
    (hnone : ∀ e ∈ after, ¬Reopens g q.state.types r e) : Closed g skip q.state r := by
  rcases slots_cases g r with ⟨source, dest, hin', hout⟩ | hmissing
  · obtain rfl := Option.some.inj (hin'.symm.trans hin)
    have hfinish {r' : EdgeRef} (hr' : r' ∈ edges g source)
        (hnone' : ∀ e ∈ after, ¬Reopens g q.state.types r' e) : Closed g skip q.state r' :=
      h.closed_of_entered hp hg hcomplete hsize (.refl _) hentered hbefore hr' hnone'
    by_cases hfirst : ∀ i, r.inSlot = .input i → (g.op r.op).slotOf? source = some i
    · exact hfinish (mem_edges hg hin hout hne hfirst) hnone
    · push Not at hfirst
      obtain ⟨i, hslot, hlater⟩ := hfirst
      have hi : (g.op r.op).input? i = some source := by rw [hslot] at hin; exact hin
      obtain ⟨j, hle, hj, hinput⟩ := Op.exists_slotOf? hi
      have hlt : j < i := Nat.lt_of_le_of_ne hle fun heq => hlater (heq ▸ hj)
      have hearlier := hfinish
        (mem_edges (r := r.earlier i j) hg hinput
          ((Op.at?_avoiding hi hinput r.outSlot).trans hout)
          (r.outSlot.avoiding_ne (Nat.ne_of_lt hlt)) fun k hk => by
            cases hk
            exact hj)
        fun e he hopens => hnone e he (hopens.of_earlier hslot hi hinput hlt hj hnot)
      exact hearlier.repeated hslot hi hinput hlt hout (hslot ▸ hne.symm) hj hnot
  · rw [Closed, judge_of_missing hmissing]

end Recovery

open Recovery

/-- In a round every observable value is entered as the root of a traversal. An edge along which
something more specific would still be taken when the round is over is neglected, or after every
entry of its source there is an event that opens it. -/
theorem Routine.WellFormed.open_edges {r : Routine} (hr : r.WellFormed) (c : Config)
    (hround : (r.apply c).outcome = .converged ∨ (r.apply c).outcome.isChanged = true) :
    (∀ v, (r.graph.varnode v).isObservable = true → .entered v v ∈ (r.apply c).events.toList) ∧
    ∀ v e, (r.graph.op e.op).at? e.inSlot = some v →
      (offer r.graph (skipsMerges c r.graph) { state := (r.apply c).routine.state } e).taken =
        true →
      Neglected r.graph (r.apply c).routine.state e ∨
      ∀ before root after, (r.apply c).events.toList = before ++ .entered root v :: after →
        ∃ event ∈ after, Reopens r.graph (r.apply c).routine.state.types e event := by
  have heq : r.apply c = r.runRound c := by
    rcases r.apply_cases c with heq | ⟨-, hconverged, hchanged, -⟩
    · exact heq
    · rw [hchanged] at hround
      exact absurd hround (by simp [hconverged])
  rw [heq, r.events_runRound, r.state_runRound]
  constructor
  · intro v hv
    have hpos := Nat.lt_of_le_of_lt (Nat.zero_le _) (Graph.WellFormed.lt_of_observable hv)
    obtain ⟨pushed, unified, flows, t, returns, frames, hphases⟩ := hr.phases hpos c
    exact hphases.run.mem_events_of_entered (hr.guessed_later hpos).2
      (List.mem_append_left _ (hphases.enters v (hr.graph.mem_observables.mpr hv)))
  · intro v e hin htaken
    by_contra hnot
    push Not at hnot
    obtain ⟨hnot, before, root, after, hentered, hnone⟩ := hnot
    have hpos : 0 < r.graph.varnodes.size := hr.pos_of_events (c := c) fun hempty => by
      rw [hempty] at hentered
      exact absurd hentered (by simp)
    obtain ⟨pushed, unified, flows, t, returns, frames, hphases⟩ := hr.phases hpos c
    have hvalid := (hr.guessed_later hpos).2
    have hbefore : Event.entered root v ∉ r.guessed.events.toList := fun hseed => by
      obtain ⟨_, _, _, hchange⟩ := seedAll_events r.graph r.recommended _ hseed
      cases hchange
    obtain ⟨htypes, -, -, hvalues⟩ := commitAll_frame r.graph (r.pass c).state
    have hslots : e.inSlot ≠ e.outSlot := by
      intro hsame
      rw [taken_offer, taken_judge_of_eq hsame] at htaken
      cases htaken
    have hclosed := hphases.run.closed_of_source hvalid hr.graph hphases.complete
      (hr.size_guessed hpos) hentered hbefore hin hslots
      (fun hneglected => hnot (hneglected.congr htypes fun w => (hvalues w).1))
      (by rw [← htypes]; exact hnone)
    have hcommitted := hclosed.commitAll (hphases.run.valid hvalid)
    rw [Closed] at hcommitted
    rw [taken_offer, hcommitted] at htaken
    cases htaken

/-- A pointer `r` of fixed type `float8 *` after a round. Its target is loaded into `a`, `a` is
copied to `b`, and `a` is compared with `r`. In the traversal from `r` the values `a` and `b` get
the type `float8`, and then `a` takes `float8 *` from the comparison when it was already entered. -/
def resharpened : Routine :=
  let types := (TypeTable.empty 8).perform (.base 8 .float) |>.perform (.pointer 0 1)
  let values := (Routine.empty "f" .simple 2 types).newInput 8 ⟨1, 16⟩ |>.newConstant 8 1
    |>.newVarnode 8 ⟨1, 0⟩ |>.newVarnode 8 ⟨1, 8⟩ |>.newVarnode 1 ⟨1, 24⟩
  let function := (values.modifyState (·.lock 0 1)).modifyGraph fun g =>
    g.linkOp { opcode := .load, address := ⟨1, 0⟩, inputs := [1, 0], output := some 2 }
      |>.linkOp { opcode := .copy, address := ⟨1, 1⟩, inputs := [2], output := some 3 }
      |>.linkOp { opcode := .intEqual, address := ⟨1, 2⟩, inputs := [0, 2], output := some 4 }
  (function.apply {}).routine

/-- A fixed `float8` and a copy of a fixed `int8` are returned, after a round. The copy takes `int8`
from its source, and then `float8` as a returned value. -/
def sharedReturn : Routine :=
  let types := (TypeTable.empty 8).perform (.base 8 .float) |>.perform (.base 8 .int)
  let values := (Routine.empty "f" .simple 2 types).newConstant 8 0 |>.newInput 8 ⟨1, 0⟩
    |>.newInput 8 ⟨1, 8⟩ |>.newVarnode 8 ⟨1, 16⟩
  let function := (values.modifyState fun s => (s.lock 1 0).lock 2 1).modifyGraph fun g =>
    g.linkOp { opcode := .copy, address := ⟨1, 0⟩, inputs := [2], output := some 3 }
      |>.linkOp { opcode := .ret, address := ⟨1, 1⟩, inputs := [0, 1], output := none }
      |>.linkOp { opcode := .ret, address := ⟨1, 2⟩, inputs := [0, 3], output := none }
  (function.apply {}).routine

/-- `a` was entered for the last time by the traversal from `r`, so an event after that entry opened
the edge of its copy. The copy that is returned got another type after its source was entered, but a
more specific one, so the edge of that copy is closed. -/
theorem resharpened_open_edges :
    (resharpened.WellFormed ∧ (resharpened.apply {}).outcome = .converged ∧
      (offer resharpened.graph (skipsMerges {} resharpened.graph)
        { state := (resharpened.apply {}).routine.state } ⟨1, .input 0, .output⟩).taken = true ∧
      ∃ event ∈ (resharpened.apply {}).events.toList.drop 10,
        Reopens resharpened.graph (resharpened.apply {}).routine.state.types
          ⟨1, .input 0, .output⟩ event) ∧
    sharedReturn.WellFormed ∧ (sharedReturn.apply {}).outcome = .converged ∧
      .changed 3 1 0 .unifiedReturn ∈ (sharedReturn.apply {}).events.toList.drop 4 ∧
      (offer sharedReturn.graph (skipsMerges {} sharedReturn.graph)
        { state := (sharedReturn.apply {}).routine.state } ⟨0, .input 0, .output⟩).taken =
          false := by
  have hfirst {r : Routine} {o v : Nat} (hv : (r.graph.op o).slotOf? v = some 0) (s : TypeState) :
      ¬Neglected r.graph s ⟨o, .input 0, .output⟩ := by
    rintro ⟨i, w, hi, hw, hlater, -⟩
    cases hi
    have hzero := Graph.input?_of_slotOf? hv
    cases hzero.symm.trans hw
    exact hlater hv
  constructor
  · have hr : resharpened.WellFormed := by decide +kernel
    have hconverged : (resharpened.apply {}).outcome = .converged := by decide +kernel
    have hopen : (offer resharpened.graph (skipsMerges {} resharpened.graph)
        { state := (resharpened.apply {}).routine.state } ⟨1, .input 0, .output⟩).taken =
          true := by
      decide +kernel
    have hentered : (resharpened.apply {}).events.toList =
        (resharpened.apply {}).events.toList.take 9 ++
          .entered 0 2 :: (resharpened.apply {}).events.toList.drop 10 := by decide +kernel
    refine ⟨hr, hconverged, hopen, ?_⟩
    exact (((hr.open_edges {} (Or.inl hconverged)).2 2 _ (by decide +kernel) hopen).resolve_left
      (hfirst (v := 2) (by decide +kernel) _)) _ _ _ hentered
  · have hr : sharedReturn.WellFormed := by decide +kernel
    have hconverged : (sharedReturn.apply {}).outcome = .converged := by decide +kernel
    have hentered : (sharedReturn.apply {}).events.toList =
        (sharedReturn.apply {}).events.toList.take 3 ++
          .entered 2 2 :: (sharedReturn.apply {}).events.toList.drop 4 := by decide +kernel
    have hnone : ∀ event ∈ (sharedReturn.apply {}).events.toList.drop 4,
        ¬Reopens sharedReturn.graph (sharedReturn.apply {}).routine.state.types
          ⟨0, .input 0, .output⟩ event := by decide +kernel
    refine ⟨hr, hconverged, by decide +kernel, ?_⟩
    by_contra hopen
    rw [Bool.not_eq_false] at hopen
    obtain ⟨event, hmem, hreopens⟩ :=
      (((hr.open_edges {} (Or.inl hconverged)).2 2 _ (by decide +kernel) hopen).resolve_left
        (hfirst (v := 2) (by decide +kernel) _)) _ _ _ hentered
    exact hnone event hmem hreopens

/-- An edge from an observable value that is open when a round has converged. -/
def LeftOpen (c : Config) (r : Routine) (e : EdgeRef) : Prop :=
  (r.apply c).outcome = .converged ∧
    ((r.graph.op e.op).at? e.inSlot).any (fun v => (r.graph.varnode v).isObservable) = true ∧
    (offer r.graph (skipsMerges c r.graph) { state := (r.apply c).routine.state } e).taken = true

instance (c : Config) (r : Routine) (e : EdgeRef) : Decidable (LeftOpen c r e) :=
  inferInstanceAs (Decidable (_ ∧ _ ∧ _))

/-- A fixed `float8 *`, four bytes that are loaded through it, and a fixed `int8` that they are
copied to, after a round. The loaded value takes `int8` from its copy when the pointer was already
entered, and only then is it as wide as the target of the pointer. -/
def widenedRead : Routine :=
  let types := (TypeTable.empty 8).perform (.base 8 .float) |>.perform (.pointer 0 1)
    |>.perform (.base 8 .int)
  let values := (Routine.empty "f" .simple 2 types).newConstant 8 1 |>.newInput 8 ⟨1, 0⟩
    |>.newVarnode 4 ⟨1, 8⟩ |>.newVarnode 8 ⟨1, 16⟩
  let function := (values.modifyState fun s => (s.lock 1 1).lock 3 2).modifyGraph fun g =>
    g.linkOp { opcode := .load, address := ⟨1, 0⟩, inputs := [0, 1], output := some 2 }
      |>.linkOp { opcode := .copy, address := ⟨1, 1⟩, inputs := [2], output := some 3 }
  (function.apply {}).routine

/-- A constant that is compared with a fixed `int4 *` and with a fixed structure, and added to
another `int4 *`, after a round. The constant is a pointer when the second pointer is entered, and
becomes a structure later. -/
def retypedAddend : Routine :=
  let types := (TypeTable.empty 8).perform (.base 4 .int) |>.perform (.pointer 0 1)
    |>.perform (.struct "s" 8 [⟨0, "a", 0⟩])
  let values := (Routine.empty "f" .simple 2 types).newConstant 8 0 |>.newInput 8 ⟨1, 0⟩
    |>.newInput 8 ⟨1, 8⟩ |>.newInput 8 ⟨1, 16⟩ |>.newVarnode 1 ⟨1, 24⟩ |>.newVarnode 1 ⟨1, 25⟩
    |>.newVarnode 8 ⟨1, 32⟩
  let function := (values.modifyState fun s =>
      ((s.lock 1 1).lock 2 1).lock 3 2).modifyGraph fun g =>
    g.linkOp { opcode := .intEqual, address := ⟨1, 0⟩, inputs := [1, 0], output := some 4 }
      |>.linkOp { opcode := .intEqual, address := ⟨1, 1⟩, inputs := [3, 0], output := some 5 }
      |>.linkOp { opcode := .intAdd, address := ⟨1, 2⟩, inputs := [2, 0], output := some 6 }
  (function.apply {}).routine

/-- Each kind of event that opens an edge does leave one open: another type of the source, a less
specific type of a returned value, another size of a loaded value, and a constant that is no longer
a pointer. -/
theorem leftOpen_reopened :
    LeftOpen {} resharpened ⟨1, .input 0, .output⟩ ∧
      LeftOpen {} (overtakenReturn.apply {}).routine ⟨0, .input 1, .output⟩ ∧
      LeftOpen {} widenedRead ⟨0, .input 1, .output⟩ ∧
      LeftOpen {} retypedAddend ⟨2, .input 0, .output⟩ := by
  decide +kernel

/-- A single op on a constant and two inputs, some of them of fixed types, after a round. -/
def single (c : Config) (op : Op) (fixed : List (VarnodeId × TypeId)) : Routine :=
  let types := (TypeTable.empty 8).perform (.base 1 .int) |>.perform (.pointer 0 1)
    |>.perform (.base 8 .int) |>.perform (.pointer 2 1) |>.perform (.base 8 .float)
    |>.perform (.union "u" 8 [⟨0, "i", 2⟩, ⟨0, "f", 4⟩])
  let values := (Routine.empty "f" .simple 2 types).newConstant 8 5 |>.newInput 8 ⟨1, 0⟩
    |>.newInput 8 ⟨1, 8⟩ |>.newVarnode 8 ⟨1, 16⟩
  let function := (values.modifyState fun s =>
    (fixed.foldl (fun s x => s.lock x.1 x.2) s).choose 0 (.input 0) 0).modifyGraph (·.linkOp op)
  (function.apply c).routine.reset

/-- Each kind of neglected edge can be open: from a union that is resolved to another field at its
first position, from the address of a load and the value of a store that the op has at an earlier
position as well, and from the third operand of an addition and of an indirect effect. -/
theorem leftOpen_neglected :
    let c : Config := { requireHeritageForMerges := false }
    let op (opcode : Opcode) (inputs : List VarnodeId) (output : Option VarnodeId) : Op :=
      { opcode, address := ⟨1, 0⟩, inputs, output }
    LeftOpen c (single c (op .multiEqual [1, 1] (some 3)) [(1, 5)]) ⟨0, .input 1, .output⟩ ∧
      LeftOpen c (single c (op .load [1, 1] (some 3)) [(1, 3)]) ⟨0, .input 1, .output⟩ ∧
      LeftOpen c (single c (op .store [0, 1, 1] none) []) ⟨0, .input 2, .input 1⟩ ∧
      LeftOpen c (single c (op .intAdd [1, 0, 1] (some 3)) [(0, 3), (1, 1)])
        ⟨0, .input 2, .output⟩ ∧
      LeftOpen c (single c (op .indirect [2, 1, 1] (some 3)) [(1, 4)]) ⟨0, .input 2, .output⟩ := by
  decide +kernel

end TypeRecovery
