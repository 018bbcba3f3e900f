import TypeRecovery.Recovery.Flow
import TypeRecovery.Proofs.Transfer.Carried

/-!
# Offers in later states

An offer resolves the type that flows out of a slot, lets the op transfer it, and compares the
result with the type at the destination. Resolving and transferring only add to the table of types
and to the choices of union fields. In a later state that agrees on the values of the op, an offer
therefore comes to the same verdict and adds nothing.
-/

namespace TypeRecovery

namespace TypeState

/-- The second state differs from the first by further types and further choices of fields. -/
structure Learns (s s' : TypeState) : Prop where
  /-- What is known of the values is the same. -/
  values : s'.values = s.values
  /-- The table grew by atoms and pointers. -/
  types : s.types.Grows s'.types
  /-- Fields that were chosen stay chosen. -/
  choices : ∀ (o : Nat) slot field, s.choice? o slot = some field →
    s'.choice? o slot = some field

namespace Learns

variable {s s' s'' : TypeState}

/-- Nothing has to be learned. -/
theorem refl (s : TypeState) : s.Learns s := ⟨rfl, .refl, fun _ _ _ h => h⟩

/-- What is learned adds up. -/
theorem trans (h : s.Learns s') (h' : s'.Learns s'') : s.Learns s'' :=
  ⟨h'.values.trans h.values, h.types.trans h'.types,
    fun o slot field hf => h'.choices o slot field (h.choices o slot field hf)⟩

/-- A table that has grown is learned. -/
theorem withTypes (h : s.Learns s') {u : TypeTable} (hu : s'.types.Grows u) :
    s.Learns (s'.withTypes u) :=
  ⟨h.values, h.types.trans hu, h.choices⟩

/-- What is known of a value stays the same. -/
theorem typing (h : s.Learns s') (v : Nat) : s'.typing v = s.typing v := by
  rw [TypeState.typing, TypeState.typing, h.values]

/-- Temporary types stay the same. -/
theorem temporary (h : s.Learns s') (v : Nat) : s'.temporary v = s.temporary v :=
  congrArg Typing.temporary (h.typing v)

/-- Committed types stay the same. -/
theorem committed (h : s.Learns s') (v : Nat) : s'.committed v = s.committed v :=
  congrArg Typing.committed (h.typing v)

/-- The same values are locked. -/
theorem locked (h : s.Learns s') (v : Nat) : s'.locked v = s.locked v :=
  congrArg Typing.locked (h.typing v)

/-- The same values are blocked. -/
theorem blocked (h : s.Learns s') (v : Nat) : s'.blocked v = s.blocked v :=
  congrArg Typing.blocked (h.typing v)

/-- What was valid stays valid. -/
theorem valid (h : s.Learns s') (hs : s.Valid) : s'.Valid where
  types := h.types.wellFormed hs.types
  temporary v := by
    rw [h.temporary v]
    exact h.types.extends.has (hs.temporary v)
  committed v := by
    rw [h.committed v]
    exact h.types.extends.has (hs.committed v)

end Learns

end TypeState

namespace Recovery

open TypeTable TypeState

variable {g : Graph} {skip : Bool} {s s' : TypeState} {o : Nat} {slot : Slot}

/-! ## Unions -/

/-- Choosing a field learns at most the choice. -/
theorem chooseField_learns (s : TypeState) (union o : Nat) (slot : Slot) :
    s.Learns (chooseField s union o slot).2 := by
  rw [chooseField]
  cases hc : s.choice? o slot with
  | some field => exact .refl s
  | none =>
    dsimp only
    cases s.types.bestUnionField? union (s.types.size union) with
    | none => exact .refl s
    | some field =>
      refine ⟨rfl, .refl, fun o' slot' field' hf => ?_⟩
      rw [choice?_choose, if_neg ?_]
      · exact hf
      · rintro ⟨rfl, rfl⟩
        rw [hc] at hf
        cases hf

/-- Choosing a field adds no type. -/
theorem types_chooseField (s : TypeState) (union o : Nat) (slot : Slot) :
    (chooseField s union o slot).2.types = s.types := by
  rw [chooseField]
  cases s.choice? o slot with
  | some field => rfl
  | none =>
    dsimp only
    cases s.types.bestUnionField? union (s.types.size union) <;> rfl

/-- The field that flows out of a slot is the one chosen there afterwards. -/
theorem fst_chooseField (s : TypeState) (union o : Nat) (slot : Slot) :
    (chooseField s union o slot).1 = (chooseField s union o slot).2.choice? o slot := by
  rw [chooseField]
  cases hc : s.choice? o slot with
  | some field => exact hc.symm
  | none =>
    dsimp only
    cases s.types.bestUnionField? union (s.types.size union) with
    | none => exact hc.symm
    | some field =>
      dsimp only
      rw [choice?_choose, if_pos ⟨rfl, rfl⟩]

/-- A union with a field of its own size has a field that flows out of every slot. -/
theorem chooseField_isSome {union : Nat}
    (h : (s.types.bestUnionField? union (s.types.size union)).isSome = true) (o : Nat)
    (slot : Slot) : ((chooseField s union o slot).1).isSome = true := by
  rw [chooseField]
  cases s.choice? o slot with
  | some field => rfl
  | none =>
    dsimp only
    cases hb : s.types.bestUnionField? union (s.types.size union) with
    | none => rw [hb] at h; cases h
    | some field => rfl

/-- A field that was chosen is chosen again. -/
theorem chooseField_again (o : Nat) (slot : Slot) (hs : s.types.WellFormed) {union : Nat}
    (hunion : s.types.Has union) (hu : s.types.Extends s'.types)
    (hc : s'.choice? o slot = (chooseField s union o slot).2.choice? o slot) :
    chooseField s' union o slot = ((chooseField s union o slot).1, s') := by
  have hfst := fst_chooseField s union o slot
  rw [← hc] at hfst
  rw [hfst, chooseField]
  cases hchoice : s'.choice? o slot with
  | some field => rfl
  | none =>
    rw [hchoice, chooseField] at hfst
    dsimp only
    rw [hu.size hunion, hu.bestUnionField? hs hunion]
    -- nothing was chosen afterwards, so no field is as wide as the union
    cases hold : s.choice? o slot with
    | some field => rw [hold] at hfst; cases hfst
    | none =>
      rw [hold] at hfst
      cases hbest : s.types.bestUnionField? union (s.types.size union) with
      | some field => rw [hbest] at hfst; cases hfst
      | none => rfl

/-- The union that a type is, or points to. -/
theorem has_union (hs : s.types.WellFormed) {t : Nat} (ht : s.types.Has t) :
    s.types.Has ((s.types.pointee? t).getD t) := by
  cases hp : s.types.pointee? t with
  | none => exact ht
  | some pointee => exact hs.has_pointee ht hp

/-- Resolving a union learns a choice and perhaps a pointer, and gives a type that exists. -/
theorem resolveUnion_learns (hs : s.types.WellFormed) {t : Nat} (ht : s.types.Has t) (o : Nat)
    (slot : Slot) :
    s.Learns (resolveUnion s t o slot).2 ∧
      (resolveUnion s t o slot).2.types.Has (resolveUnion s t o slot).1 := by
  have hunion := has_union hs ht
  rw [resolveUnion]
  generalize (s.types.pointee? t).getD t = union at hunion ⊢
  have hlearns := chooseField_learns s union o slot
  have htypes := types_chooseField s union o slot
  generalize chooseField s union o slot = chosen at hlearns htypes ⊢
  dsimp only
  cases hf : chosen.1.bind fun index => (s.types.unionFields union)[index]? with
  | none => exact ⟨hlearns, htypes ▸ ht⟩
  | some field =>
    obtain ⟨index, -, hindex⟩ := Option.bind_eq_some_iff.mp hf
    have hfield := hs.has_unionField hunion (List.mem_of_getElem? hindex)
    cases s.types.pointee? t with
    | none => exact ⟨hlearns, htypes ▸ hfield⟩
    | some pointee =>
      have hptr := gives_pointerSized (s.types.size t) (s.types.wordSize t) hfield
      exact ⟨hlearns.withTypes (by rw [htypes]; exact hptr.grows), hptr.has⟩

/-- A union that was resolved is resolved to the same type again. -/
theorem resolveUnion_again (hs : s.types.WellFormed) {t : Nat} (ht : s.types.Has t)
    (hu : (resolveUnion s t o slot).2.types.Extends s'.types)
    (hc : s'.choice? o slot = (resolveUnion s t o slot).2.choice? o slot) :
    resolveUnion s' t o slot = ((resolveUnion s t o slot).1, s') := by
  have hext := (resolveUnion_learns hs ht o slot).1.types.extends.trans hu
  have hunion := has_union hs ht
  rw [resolveUnion] at hu hc
  rw [resolveUnion, resolveUnion, hext.pointee? ht]
  generalize (s.types.pointee? t).getD t = union at hu hc hunion ⊢
  dsimp only at hu hc ⊢
  have hagain := chooseField_again o slot hs hunion hext
  rw [hext.unionFields hunion]
  generalize chooseField s union o slot = chosen at hu hc hagain ⊢
  cases hf : chosen.1.bind fun index => (s.types.unionFields union)[index]? with
  | none =>
    simp only [hf] at hc
    simp only [hagain hc, hf]
  | some field =>
    cases hp : s.types.pointee? t with
    | none =>
      simp only [hf, hp] at hc
      simp only [hagain hc, hf]
    | some pointee =>
      simp only [hf, hp] at hc hu
      simp only [hagain hc, hf, hext.size ht, hext.wordSize ht, pointerSized_again hu]
      rfl

/-! ## The type that flows out of a slot -/

/-- What flows out of a slot exists, once the state has learned it. -/
theorem flowingType_learns (hs : s.Valid) (v o : Nat) (slot : Slot) :
    s.Learns (flowingType s v o slot).2 ∧
      (flowingType s v o slot).2.types.Has (flowingType s v o slot).1 := by
  rw [flowingType]
  split
  · exact resolveUnion_learns hs.types (hs.temporary v) o slot
  · exact ⟨.refl s, hs.temporary v⟩

/-- The same type flows out of a slot as long as the value there keeps its type and the slot its
choice. -/
theorem flowingType_again (hs : s.Valid) {v : Nat}
    (hu : (flowingType s v o slot).2.types.Extends s'.types)
    (hv : s'.temporary v = s.temporary v)
    (hc : s.types.needsResolution (s.temporary v) = true →
      s'.choice? o slot = (flowingType s v o slot).2.choice? o slot) :
    flowingType s' v o slot = ((flowingType s v o slot).1, s') := by
  have hext := (flowingType_learns hs v o slot).1.types.extends.trans hu
  rw [flowingType] at hu hc
  rw [flowingType, flowingType, hv, hext.needsResolution hs.types (hs.temporary v)]
  split
  · rename_i hneeds
    rw [if_pos hneeds] at hu hc
    exact resolveUnion_again hs.types (hs.temporary v) hu (hc hneeds)
  · rfl

/-! ## Verdicts -/

/-- What an offer comes to. -/
structure Verdict where
  /-- The destination and the type that it takes, if the offer is taken. -/
  taken : Option (VarnodeId × TypeId)
  /-- The state in which the offer was decided, before anything is taken. -/
  state : TypeState

/-- The edge along which the type of a source is offered to a destination. -/
def edgeOf (g : Graph) (r : EdgeRef) (source dest : VarnodeId) (type : TypeId) : Edge :=
  ⟨g.op r.op, type, source, dest, r.inSlot, r.outSlot⟩

/-- Decide an offer without carrying it out. -/
def judge (g : Graph) (skipMerges : Bool) (s : TypeState) (r : EdgeRef) : Verdict :=
  match (g.op r.op).at? r.inSlot, (g.op r.op).at? r.outSlot with
  | some source, some dest =>
    let flow := flowingType s source r.op r.inSlot
    if admits g flow.2 skipMerges (edgeOf g r source dest flow.1) then
      match Transfer.transfer g flow.2 (edgeOf g r source dest flow.1) with
      | none => ⟨none, flow.2⟩
      | some new =>
        ⟨if new.table.moreSpecific new.id (flow.2.temporary dest) then some (dest, new.id)
          else none, flow.2.withTypes new.table⟩
    else ⟨none, flow.2⟩
  | _, _ => ⟨none, s⟩

/-- An offer is decided and then carried out. -/
theorem offer_eq (g : Graph) (skip : Bool) (p : Pass) (r : EdgeRef) :
    offer g skip p r =
      match (judge g skip p.state r).taken with
      | none => ⟨false, { p with state := (judge g skip p.state r).state }⟩
      | some (dest, t) =>
        ⟨true, Pass.setTemporary { p with state := (judge g skip p.state r).state } dest t
          (.edge r.op r.inSlot r.outSlot)⟩ := by
  rw [offer, judge]
  cases (g.op r.op).at? r.inSlot with
  | none => rfl
  | some source =>
    cases (g.op r.op).at? r.outSlot with
    | none => rfl
    | some dest =>
      dsimp only
      generalize flowingType p.state source r.op r.inSlot = flow
      rw [edgeOf]
      split
      · cases Transfer.transfer g flow.2
          ⟨g.op r.op, flow.1, source, dest, r.inSlot, r.outSlot⟩ with
        | none => rfl
        | some new =>
          dsimp only
          rw [Pass.withTypes, temporary_withTypes]
          split <;> rfl
      · rfl

variable {r : EdgeRef} {source dest : Nat}

/-- An offer between two values is decided by what flows out of the first one. -/
theorem judge_of_slots (hin : (g.op r.op).at? r.inSlot = some source)
    (hout : (g.op r.op).at? r.outSlot = some dest) :
    judge g skip s r =
      let flow := flowingType s source r.op r.inSlot
      if admits g flow.2 skip (edgeOf g r source dest flow.1) then
        match Transfer.transfer g flow.2 (edgeOf g r source dest flow.1) with
        | none => ⟨none, flow.2⟩
        | some new =>
          ⟨if new.table.moreSpecific new.id (flow.2.temporary dest) then some (dest, new.id)
            else none, flow.2.withTypes new.table⟩
      else ⟨none, flow.2⟩ := by
  rw [judge, hin, hout]

/-- An offer to or from a slot that holds nothing is not taken. -/
theorem judge_of_missing (h : (g.op r.op).at? r.inSlot = none ∨ (g.op r.op).at? r.outSlot = none) :
    judge g skip s r = ⟨none, s⟩ := by
  rw [judge]
  rcases h with h | h
  · rw [h]
  · rw [h]
    cases (g.op r.op).at? r.inSlot <;> rfl

/-- An edge has values at both of its slots, or it carries nothing. -/
theorem slots_cases (g : Graph) (r : EdgeRef) :
    (∃ source dest, (g.op r.op).at? r.inSlot = some source ∧
      (g.op r.op).at? r.outSlot = some dest) ∨
      ((g.op r.op).at? r.inSlot = none ∨ (g.op r.op).at? r.outSlot = none) := by
  cases hin : (g.op r.op).at? r.inSlot with
  | none => exact Or.inr (Or.inl rfl)
  | some source =>
    cases hout : (g.op r.op).at? r.outSlot with
    | none => exact Or.inr (Or.inr rfl)
    | some dest => exact Or.inl ⟨source, dest, rfl, rfl⟩

/-- The state in which an offer is decided comes after the one in which its type flows. -/
theorem flow_learns_judge (skip : Bool) (hs : s.Valid)
    (hin : (g.op r.op).at? r.inSlot = some source)
    (hout : (g.op r.op).at? r.outSlot = some dest) :
    (flowingType s source r.op r.inSlot).2.Learns (judge g skip s r).state := by
  obtain ⟨hflow, hhas⟩ := flowingType_learns hs source r.op r.inSlot
  have hvalid := hflow.valid hs
  rw [judge_of_slots hin hout]
  generalize flowingType s source r.op r.inSlot = flow at hflow hhas hvalid ⊢
  dsimp only
  split
  · cases ht : Transfer.transfer g flow.2 (edgeOf g r source dest flow.1) with
    | none => exact .refl _
    | some new =>
      exact (Learns.refl _).withTypes (Transfer.gives_transfer hvalid hhas ht).grows
  · exact .refl _

/-- Deciding an offer learns types and choices. -/
theorem judge_learns (g : Graph) (skip : Bool) (hs : s.Valid) (r : EdgeRef) :
    s.Learns (judge g skip s r).state := by
  rcases slots_cases g r with ⟨source, dest, hin, hout⟩ | hmissing
  · exact (flowingType_learns hs source r.op r.inSlot).1.trans (flow_learns_judge skip hs hin hout)
  · rw [judge_of_missing hmissing]
    exact .refl s

/-- The choice at the slot that an offer comes from is the one made when its type was resolved. -/
theorem choices_judge (skip : Bool) (hin : (g.op r.op).at? r.inSlot = some source)
    (hout : (g.op r.op).at? r.outSlot = some dest) :
    (judge g skip s r).state.choices = (flowingType s source r.op r.inSlot).2.choices := by
  rw [judge_of_slots hin hout]
  generalize flowingType s source r.op r.inSlot = flow
  dsimp only
  split
  · cases Transfer.transfer g flow.2 (edgeOf g r source dest flow.1) <;> rfl
  · rfl

/-- What happened when an offer was taken. -/
theorem judge_eq_some {place : VarnodeId × TypeId}
    (h : (judge g skip s r).taken = some place) :
    ∃ source flow new, (g.op r.op).at? r.inSlot = some source ∧
      (g.op r.op).at? r.outSlot = some place.1 ∧ flowingType s source r.op r.inSlot = flow ∧
      admits g flow.2 skip (edgeOf g r source place.1 flow.1) = true ∧
      Transfer.transfer g flow.2 (edgeOf g r source place.1 flow.1) = some new ∧
      new.id = place.2 ∧ new.table.moreSpecific new.id (flow.2.temporary place.1) = true ∧
      (judge g skip s r).state = flow.2.withTypes new.table := by
  rcases slots_cases g r with ⟨source, dest, hin, hout⟩ | hmissing
  · rw [judge_of_slots hin hout] at h ⊢
    generalize hflow : flowingType s source r.op r.inSlot = flow at h ⊢
    dsimp only at h ⊢
    split at h
    · rename_i hadmits
      cases ht : Transfer.transfer g flow.2 (edgeOf g r source dest flow.1) with
      | none => rw [ht] at h; cases h
      | some new =>
        rw [ht] at h
        dsimp only at h
        split at h
        · rename_i hmore
          cases h
          refine ⟨source, flow, new, hin, hout, hflow, hadmits, ht, rfl, hmore, ?_⟩
          rw [if_pos hadmits]
        · cases h
    · cases h
  · rw [judge_of_missing hmissing] at h
    cases h

/-- An offer is taken by the value at its end. -/
theorem slot_of_judge {place : VarnodeId × TypeId} (h : (judge g skip s r).taken = some place) :
    (g.op r.op).at? r.outSlot = some place.1 := by
  obtain ⟨source, flow, new, -, hout, -⟩ := judge_eq_some h
  exact hout

/-- What is known when an offer is taken. -/
structure Taken (g : Graph) (skip : Bool) (s : TypeState) (r : EdgeRef) (v : Verdict)
    (dest t : Nat) : Prop where
  /-- The destination is at the slot to which the edge leads. -/
  slot : (g.op r.op).at? r.outSlot = some dest
  /-- The destination is a value of the program. -/
  annotation : Varnode.annotation (g.varnode dest) = false
  /-- The type of the destination is not fixed. -/
  locked : s.locked dest = false
  /-- No type goes up into a value that stops types on their way up. -/
  blocked : r.outSlot.isInput = true → s.blocked dest = false
  /-- Merge points that are left out are not crossed. -/
  merge : ¬(skip = true ∧ (g.op r.op).opcode.isMerge = true)
  /-- The type exists. -/
  has : v.state.types.Has t
  /-- The type is strictly more specific than the one before. -/
  order : v.state.types.order t (s.temporary dest) = .lt

/-- What an offer that is taken has gone through. -/
theorem judge_taken (hs : s.Valid) {dest t : Nat}
    (h : (judge g skip s r).taken = some (dest, t)) :
    Taken g skip s r (judge g skip s r) dest t := by
  obtain ⟨source, flow, new, hin, hout, hflow, hadmits, htransfer, rfl, hmore, hstate⟩ :=
    judge_eq_some h
  obtain ⟨hlearns, hhas⟩ := flowingType_learns hs source r.op r.inSlot
  rw [hflow] at hlearns hhas
  simp only [admits, edgeOf, Bool.and_eq_true, Bool.not_eq_true', Bool.or_eq_false_iff] at hadmits
  obtain ⟨⟨⟨⟨-, hannotation, hlocked⟩, hblocked⟩, -⟩, hmerge⟩ := hadmits
  rw [hlearns.temporary] at hmore
  refine ⟨hout, hannotation, (hlearns.locked dest) ▸ hlocked, fun hinput => ?_, fun hskip => ?_,
    ?_, ?_⟩
  · rw [hinput, Bool.true_and] at hblocked
    exact (hlearns.blocked dest) ▸ hblocked
  · rw [hskip.1, hskip.2] at hmerge
    cases hmerge
  · rw [hstate]
    exact (Transfer.gives_transfer (hlearns.valid hs) hhas htransfer).has
  · rw [hstate]
    exact (moreSpecific_iff ..).mp hmore

/-- An edge that is admitted joins two slots of its op. -/
theorem joins_of_admits {t : Nat} (hin : (g.op r.op).at? r.inSlot = some source)
    (hout : (g.op r.op).at? r.outSlot = some dest)
    (h : admits g s skip (edgeOf g r source dest t) = true) :
    (edgeOf g r source dest t).Joins := by
  simp only [admits, edgeOf, Bool.and_eq_true] at h
  exact ⟨hin, hout, of_decide_eq_true h.1.1.1.1⟩

/-- No boolean is admitted to a value that may hold more than zero or one. -/
theorem not_boolean_of_admits {e : Edge} (h : admits g s skip e = true) :
    ¬(s.types.metatype e.type = .bool ∧ 1 < (g.varnode e.dest).mask) := by
  rintro ⟨hbool, hmask⟩
  simp [admits, hbool, hmask] at h

/-- A destination that is as it was admits a type as it did. -/
theorem admits_again {e : Edge} (hlocked : s'.locked e.dest = s.locked e.dest)
    (hblocked : s'.blocked e.dest = s.blocked e.dest)
    (hmeta : s'.types.metatype e.type = s.types.metatype e.type) :
    admits g s' skip e = admits g s skip e := by
  rw [admits, admits, hlocked, hblocked, hmeta]

/-- An offer comes to the same verdict, and adds nothing, in a later state that agrees on the
values of the op and on the choice at the slot it comes from. -/
theorem judge_again (hs : s.Valid) (hagree : s.AgreesOn s' (g.op r.op))
    (hlocked : ∀ v, s'.locked v = s.locked v) (hblocked : ∀ v, s'.blocked v = s.blocked v)
    (hu : (judge g skip s r).state.types.Extends s'.types)
    (hc : ∀ source, (g.op r.op).at? r.inSlot = some source →
      s.types.needsResolution (s.temporary source) = true →
        s'.choice? r.op r.inSlot = (judge g skip s r).state.choice? r.op r.inSlot) :
    judge g skip s' r = ⟨(judge g skip s r).taken, s'⟩ := by
  rcases slots_cases g r with ⟨source, dest, hin, hout⟩ | hmissing
  · obtain ⟨hflow, hhas⟩ := flowingType_learns hs source r.op r.inSlot
    have hvalid := hflow.valid hs
    have hext := (flow_learns_judge skip hs hin hout).types.extends.trans hu
    have htouch : (g.op r.op).Touches dest := Op.touches_of_at? hout
    have hagain := flowingType_again hs hext (hagree source (Op.touches_of_at? hin))
      fun hneeds => by
        rw [hc source hin hneeds, choice?, choices_judge skip hin hout]
        rfl
    rw [judge_of_slots hin hout] at hu
    rw [judge_of_slots hin hout, judge_of_slots hin hout, hagain]
    generalize flowingType s source r.op r.inSlot = flow at hu hflow hhas hvalid hext ⊢
    dsimp only at hu ⊢
    have hsame : flow.2.AgreesOn s' (g.op r.op) := fun v hv => by
      rw [hagree v hv, hflow.temporary]
    rw [admits_again (s := flow.2) ((hlocked _).trans (hflow.locked _).symm)
      ((hblocked _).trans (hflow.blocked _).symm) (hext.metatype hhas)]
    split
    · rename_i hadmits
      rw [if_pos hadmits] at hu
      rw [Transfer.transfer_again hvalid hhas htouch hsame hext fun i hi => by
        rw [hi] at hu
        exact hu]
      cases ht : Transfer.transfer g flow.2 (edgeOf g r source dest flow.1) with
      | none => rfl
      | some new =>
        have hgives := Transfer.gives_transfer hvalid hhas ht
        simp only [ht, types_withTypes] at hu
        have hmore := hu.moreSpecific (hgives.grows.wellFormed hvalid.types) hgives.has
          (hgives.grows.extends.has (hvalid.temporary dest))
        simp only [Option.map_some, Interned.into, hsame dest htouch, hmore]
        rfl
    · rfl
  · rw [judge_of_missing hmissing, judge_of_missing hmissing]

end Recovery

end TypeRecovery
