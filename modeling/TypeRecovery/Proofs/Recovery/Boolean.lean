import TypeRecovery.Proofs.Recovery.Account
import TypeRecovery.Proofs.Recovery.UnionChoice

/-!
# Booleans on values that may hold more than one bit

An edge does not offer a boolean to a value that may be other than zero or one, and neither are
returned values unified to a boolean then. What is checked on an edge is the type that flows into
it, though, and not the type that it carries. So after the first guesses a boolean reaches such a
value in one way only: it is extracted from another type, by a load or store through a pointer to
it, by a truncation of a structure or array that holds it, or through a pointer into the frame.
-/

namespace TypeRecovery

namespace Recovery

open TypeTable TypeState

/-- A type flows out of a slot of an op while the values have the given temporary types. -/
def FlowsOut (g : Graph) (s : TypeState) (temporary : VarnodeId → TypeId) (o : OpId) (slot : Slot)
    (type : TypeId) : Prop :=
  ∃ source, (g.op o).at? slot = some source ∧ Outflow s o slot (temporary source) type

/-- A cause for which a value gets a type that is part of the type that flows, and not the type
itself. The types are those of the state at the end of a round; the temporary types that the values
have at a moment of the round are found by replaying the events until then. -/
inductive Extracts (g : Graph) (s : TypeState) (start : VarnodeId → TypeId) (before : List Event)
    (v : VarnodeId) (part : TypeId) : Cause → Prop where
  /-- A load through a pointer to the part. -/
  | load {o : OpId} {i : Nat} {slot : Slot} {temporary : VarnodeId → TypeId} {whole : TypeId}
      (op : (g.op o).opcode = .load)
      (moment : before.foldlM Event.replay start = some temporary)
      (flows : FlowsOut g s temporary o (.input i) whole)
      (points : s.types.pointee? whole = some part) :
      Extracts g s start before v part (.edge o (.input i) slot)
  /-- A store through a pointer to the part. -/
  | store {o : OpId} {temporary : VarnodeId → TypeId} {whole : TypeId}
      (op : (g.op o).opcode = .store)
      (moment : before.foldlM Event.replay start = some temporary)
      (flows : FlowsOut g s temporary o (.input 1) whole)
      (points : s.types.pointee? whole = some part) :
      Extracts g s start before v part (.edge o (.input 1) (.input 2))
  /-- A truncation of a structure or array to the part. -/
  | truncation {o : OpId} {temporary : VarnodeId → TypeId} {whole : TypeId} {offset : Nat}
      (op : (g.op o).opcode = .subpiece)
      (moment : before.foldlM Event.replay start = some temporary)
      (flows : FlowsOut g s temporary o (.input 0) whole)
      (aggregate : s.types.metatype whole = .struct ∨ s.types.metatype whole = .array)
      (component : s.types.exactPiece whole offset (g.varnode v).size = some part) :
      Extracts g s start before v part (.edge o (.input 0) .output)
  /-- A reference into the frame, which had its turn earlier, leads to the part. -/
  | frame {earlier : List Event} {temporary : VarnodeId → TypeId} {base : VarnodeId}
      {reference : VarnodeId × UInt64} (turn : earlier <+: before)
      (moment : earlier.foldlM Event.replay start = some temporary)
      (register : g.spaceBase = some base) (computed : reference ∈ frameReferences g base)
      (leads : Leads g s.types temporary reference v part) :
      Extracts g s start before v part .stackAlias

variable {g : Graph} {skip : Bool} {s S : TypeState} {r : EdgeRef} {v t : Nat}
  {start : VarnodeId → TypeId} {before : List Event}

/-- What flows out of a slot flows out of it by the types and choices of a later state. -/
theorem flowsOut_flowingType (hs : s.Valid) {o source : Nat} {slot : Slot}
    (hin : (g.op o).at? slot = some source)
    (hext : (flowingType s source o slot).2.types.Extends S.types)
    (hchoices : ∀ field, (flowingType s source o slot).2.choice? o slot = some field →
      S.choice? o slot = some field) :
    FlowsOut g S s.temporary o slot (flowingType s source o slot).1 := by
  obtain ⟨hlearns, hhas⟩ := flowingType_learns hs source o slot
  have hsource := hlearns.types.extends.has (hs.temporary source)
  exact ⟨source, hin, (outflow_flowingType hs source o slot).retained (hlearns.valid hs).types
    hsource hhas hext hchoices⟩

/-- A load or a store through a pointer extracts what it points to. -/
theorem extracts_of_pointee {temporary : VarnodeId → TypeId} {whole : TypeId}
    (hmoment : before.foldlM Event.replay start = some temporary)
    (hflows : FlowsOut g S temporary r.op r.inSlot whole)
    (haccess : (g.op r.op).opcode = .load ∧ r.inSlot.isInput = true ∨
      (g.op r.op).opcode = .store ∧ r.inSlot = .input 1 ∧ r.outSlot = .input 2)
    (hpoints : S.types.pointee? whole = some t) :
    Extracts g S start before v t (.edge r.op r.inSlot r.outSlot) := by
  obtain ⟨o, inSlot, outSlot⟩ := r
  rcases haccess with ⟨hop, hinput⟩ | ⟨hop, hone, htwo⟩
  · cases inSlot with
    | output => cases hinput
    | input i => exact .load hop hmoment hflows hpoints
  · cases hone
    cases htwo
    exact .store hop hmoment hflows hpoints

/-- A boolean that an edge brings to a value with further bits was extracted. -/
theorem extracts_of_taken (hs : s.Valid)
    (hmoment : before.foldlM Event.replay start = some s.temporary)
    (h : (judge g skip s r).taken = some (v, t))
    (hS : (judge g skip s r).state.types.Extends S.types)
    (hchoices : ∀ (o : Nat) slot field, (judge g skip s r).state.choice? o slot = some field →
      S.choice? o slot = some field)
    (hbool : S.types.metatype t = .bool) (hmask : 1 < (g.varnode v).mask) :
    Extracts g S start before v t (.edge r.op r.inSlot r.outSlot) := by
  obtain ⟨source, flow, new, hin, hout, hflow, hadmits, htransfer, rfl, hmore, hstate⟩ :=
    judge_eq_some h
  obtain ⟨hlearns, hhas⟩ := flowingType_learns hs source r.op r.inSlot
  have hflows := flowsOut_flowingType (S := S) hs hin
  rw [hflow] at hlearns hhas hflows
  have hguard := not_boolean_of_admits hadmits
  have hvalid := hlearns.valid hs
  have hgives := Transfer.gives_transfer hvalid hhas htransfer
  rw [hstate, types_withTypes] at hS
  rw [hstate] at hchoices
  have hflowS := hgives.grows.extends.trans hS
  replace hflows := hflows hflowS (hchoices r.op r.inSlot)
  -- neither the type that flows nor a pointer is the boolean
  have hother : new.id ≠ flow.1 := fun hsame => by
    rw [hsame, hflowS.metatype hhas] at hbool
    exact hguard ⟨hbool, hmask⟩
  have hpointer : new.table.metatype new.id ≠ .ptr := fun hptr => by
    rw [hS.metatype hgives.has, hptr] at hbool
    cases hbool
  cases Transfer.carries_transfer (joins_of_admits hin hout hadmits) htransfer with
  | kept hsame => exact absurd hsame (ne_of_order_lt (moreSpecific_iff.mp hmore))
  | passed _ hsame => exact absurd hsame hother
  | moved _ hptr => exact absurd hptr.metatype hpointer
  | address _ hptr => exact absurd hptr.metatype hpointer
  | nested _ hsame _ => exact absurd hsame hother
  | pointee haccess htarget _ =>
    have hpoints : S.types.pointee? flow.1 = some new.id := by
      rw [hflowS.pointee? hhas]
      exact htarget
    exact extracts_of_pointee hmoment hflows haccess hpoints
  | piece htruncation haggregate offset hcomponent =>
    obtain ⟨o, inSlot, outSlot⟩ := r
    obtain ⟨hop, hzero, hresult⟩ := htruncation
    cases hzero
    cases hresult
    have hwhole : S.types.metatype flow.1 = .struct ∨ S.types.metatype flow.1 = .array := by
      rw [hflowS.metatype hhas]
      exact haggregate
    have hpart : S.types.exactPiece flow.1 offset (g.varnode v).size = some new.id := by
      rw [hflowS.exactPiece hvalid.types hhas]
      exact hcomponent
    exact .truncation hop hmoment hflows hwhole hpart

end Recovery

open Recovery

namespace Routine

variable {r : Routine} {c : Config} {as rest : List Action} {p : Pass} {a : Action}
  {v old new : Nat} {cause : Cause} {S : TypeState}

/-- A piece of the frame that a value gets was found behind a reference that had its turn before. -/
theorem MadeBy.extracts_of_aliased (hr : r.WellFormed)
    (h : MadeBy r c as p (.aliased v new) rest v old new .stackAlias)
    (hS : p.state.types.Extends S.types) :
    Extracts r.graph S r.recommended.temporary p.events.toList v new .stackAlias := by
  have hguessed := (hr.guessed_later h.pos).2
  obtain ⟨early, late, m, base, reference, rfl, hm, hbase, hcomputed, hleads⟩ :=
    h.sourced as v new rest rfl
  obtain ⟨m', hm', hlate⟩ := h.run.split
  obtain rfl := hm.unique hm'
  have hvalid := hm.valid hguessed
  obtain ⟨news, hnews⟩ := hlate.events_append hvalid
  have hfits : ∀ b ∈ early, b.Fits r.graph := fun b hb =>
    h.fits b (List.mem_append_left _ (List.mem_append_left late hb))
  exact .frame ⟨news, hnews.symm⟩ (hr.accounts_run h.pos hm hfits) hbase hcomputed
    (hleads.extends hvalid.types hvalid.temporary
      ((hlate.later hvalid).types.extends.trans hS))

/-- A boolean that an action brings to a value with further bits was extracted. -/
theorem MadeBy.extracts (hr : r.WellFormed) (h : MadeBy r c as p a rest v old new cause)
    (hS : (r.pass c).state.types.Extends S.types)
    (hchoices : ∀ (o : Nat) slot field, (r.pass c).state.choice? o slot = some field →
      S.choice? o slot = some field)
    (hbool : S.types.metatype new = .bool) (hmask : 1 < (r.graph.varnode v).mask) :
    Extracts r.graph S r.recommended.temporary p.events.toList v new cause := by
  have hcauses := h.writes.causes
  have hnext := act_valid (skipsMerges c r.graph) h.valid h.enabled
  have hlater := h.later.later hnext
  have hext := (act_later (skipsMerges c r.graph) h.valid h.enabled).types.extends.trans
    (hlater.types.extends.trans hS)
  cases a with
  | entered root w => cases hcauses
  | offered e =>
    cases hcauses
    obtain ⟨htaken, hstate⟩ := taken_of_writes h.valid h.writes
    rw [hstate] at hlater
    have hmoment := hr.accounts_run h.pos h.run fun b hb => h.fits b (List.mem_append_left _ hb)
    exact extracts_of_taken h.valid hmoment htaken (hlater.types.extends.trans hS)
      (fun o slot field hf => hchoices o slot field (hlater.choices o slot field hf)) hbool hmask
  | unified w u =>
    -- the type to be installed is what is checked here
    obtain ⟨rfl, rfl, rfl⟩ := hcauses
    obtain ⟨hhas, -, -, hguard⟩ := h.enabled
    rw [hext.metatype hhas] at hbool
    exact absurd ⟨hbool, hmask⟩ hguard
  | aliased w u =>
    obtain ⟨rfl, rfl, rfl⟩ := hcauses
    exact h.extracts_of_aliased hr hext

/-- After the first guesses of a round a value that may hold more than zero or one gets a boolean
only where the boolean is extracted from another type: by a load or a store through a pointer to
it, by a truncation of what holds it, or through a pointer into the frame. No other edge and no
unification of returned values gives such a value a boolean. The other type is the one that the
operand, or the pointer into the frame when it had its turn, has by the events until then. -/
theorem WellFormed.boolean_extracted (hr : r.WellFormed) (c : Config) {before after : List Event}
    (h : (r.apply c).events.toList = before ++ .changed v old new cause :: after)
    (hcause : cause ≠ .seed) (hbool : (r.apply c).routine.state.types.metatype new = .bool)
    (hmask : 1 < (r.graph.varnode v).mask) :
    Extracts r.graph (r.apply c).routine.state r.recommended.temporary before v new cause := by
  have hround : r.apply c = r.runRound c := by
    rcases r.apply_cases c with hround | ⟨hnone, -⟩
    · exact hround
    · rw [hnone] at h
      simp at h
  rw [hround, r.events_runRound] at h
  obtain ⟨htypes, hchoices, -⟩ := commitAll_frame r.graph (r.pass c).state
  rw [hround, r.state_runRound] at hbool ⊢
  obtain ⟨as, p, a, rest, hmade, rfl⟩ := hr.exists_madeBy h hcause
  refine hmade.extracts hr (htypes ▸ .refl _) (fun o slot field hf => ?_) hbool hmask
  rw [TypeState.choice?, hchoices]
  exact hf

end Routine

/-- A byte that is loaded through a locked `bool *`, and that may hold any value. -/
def loadedFlag : Routine :=
  let types := (TypeTable.empty 8).perform (.base 1 .bool) |>.perform (.pointer 0 1)
  let values := (Routine.empty "f" .simple 2 types).newInput 8 ⟨1, 0⟩ |>.newConstant 8 1
    |>.newVarnode 1 ⟨1, 8⟩
  (values.modifyState (·.lock 0 1)).modifyGraph
    (·.linkOp { opcode := .load, address := ⟨1, 0⟩, inputs := [1, 0], output := some 2 })

/-- The byte gets the boolean along the edge of the load, although all its bits may be set. -/
theorem loadedFlag_boolean_extracted :
    loadedFlag.WellFormed ∧
      (loadedFlag.apply {}).events.toList = [.entered 1 1, .entered 0 0] ++
        .changed 2 3 0 (.edge 0 (.input 1) .output) :: [.entered 0 2, .entered 2 2] ∧
      (loadedFlag.apply {}).routine.state.types.metatype 0 = .bool ∧
      (loadedFlag.graph.varnode 2).mask = 255 ∧
      Extracts loadedFlag.graph (loadedFlag.apply {}).routine.state
        loadedFlag.recommended.temporary [.entered 1 1, .entered 0 0] 2 0
        (.edge 0 (.input 1) .output) := by
  have hr : loadedFlag.WellFormed := by decide +kernel
  have hevents : (loadedFlag.apply {}).events.toList = [.entered 1 1, .entered 0 0] ++
      .changed 2 3 0 (.edge 0 (.input 1) .output) :: [.entered 0 2, .entered 2 2] := by
    decide +kernel
  have hbool : (loadedFlag.apply {}).routine.state.types.metatype 0 = .bool := by decide +kernel
  exact ⟨hr, hevents, hbool, by decide +kernel,
    hr.boolean_extracted {} hevents Cause.noConfusion hbool (by decide +kernel)⟩

end TypeRecovery
