import TypeRecovery.Proofs.Checked.Edge
import TypeRecovery.Proofs.Recovery.Run

/-!
# Checked runs of traversals

Types are offered along edges of ops that exist, between values that exist. An offer adds types and
choices of union fields, and it changes the type of its destination: the state stays ready for the
next offer. So the checked run of a whole traversal ends with the pass that the traversal gives.
-/

namespace TypeRecovery

namespace Checked

open Recovery (Offer Walk)

variable {g : Graph} {s s' : TypeState} {p : Pass} {v o t : Nat} {slot : Slot}

/-! ## Changes of a state -/

/-- A state stays ready when types and choices are added within bounds. -/
theorem Ready.learns (hs : Ready g s) (h : s.Learns s') (hl : s'.types.Laid g.spaces.size)
    (hc : ∀ x ∈ s'.choices, x.1.1 < g.ops.size) : Ready g s' where
  valid hpos := h.valid (hs.valid hpos)
  laid := hl
  mentioned := hs.mentioned.mono h.types.extends
  count := by rw [h.values, hs.count]
  choices := hc

/-- A state stays ready when a temporary type is replaced by one that exists. -/
theorem Ready.setTemporary (hs : Ready g s) (ht : s.types.Has t) (v : Nat) :
    Ready g (s.setTemporary v t) where
  valid hpos := (hs.valid hpos).setTemporary ht
  laid := hs.laid
  mentioned := hs.mentioned
  count := TypeState.size_setTemporary.trans hs.count
  choices := hs.choices

/-- A state stays ready when a value is blocked. -/
theorem Ready.block (hs : Ready g s) (v : Nat) : Ready g (s.block v) where
  valid hpos :=
    have hvalid := hs.valid hpos
    ⟨hvalid.types, fun w => by rw [TypeState.temporary_block]; exact hvalid.temporary w,
      fun w => by rw [TypeState.committed_block]; exact hvalid.committed w⟩
  laid := hs.laid
  mentioned := hs.mentioned
  count := TypeState.size_block.trans hs.count
  choices := hs.choices

/-- A state stays ready when a type that exists is fixed. -/
theorem Ready.lock (hs : Ready g s) (ht : s.types.Has t) (v : Nat) : Ready g (s.lock v t) where
  valid hpos := (hs.valid hpos).lock ht
  laid := hs.laid
  mentioned := hs.mentioned
  count := TypeState.size_lock.trans hs.count
  choices := hs.choices

/-- A state stays ready when a type that exists is committed. -/
theorem Ready.commit (hs : Ready g s) (ht : s.types.Has t) (v : Nat) : Ready g (s.commit v t) where
  valid hpos := (hs.valid hpos).commit ht
  laid := by
    rw [TypeState.types_commit]
    exact hs.laid
  mentioned := by
    rw [TypeState.types_commit]
    exact hs.mentioned
  count := TypeState.size_commit.trans hs.count
  choices := by
    rw [TypeState.choices_commit]
    exact hs.choices

/-- Replace the temporary type of a value; replacing it by itself is no event. -/
def setTemporary (p : Pass) (v : VarnodeId) (t : TypeId) (cause : Cause) : Checked Pass := do
  let before ← temporary p.state v
  if before = t then return p
  else
    return { p with
      state := p.state.setTemporary v t
      events := p.events.push (.changed v before t cause) }

/-- A temporary type is replaced without a fault. -/
theorem setTemporary_eq (hs : Ready g p.state) (hv : v < g.varnodes.size) (t : Nat)
    (cause : Cause) : setTemporary p v t cause = .ok (p.setTemporary v t cause) := by
  rw [setTemporary, temporary_eq hs hv, ok_bind, Pass.setTemporary]
  split <;> rfl

/-! ## Unions -/

/-- The field of a union that flows out of a slot. -/
def chooseField (s : TypeState) (union : TypeId) (op : OpId) (slot : Slot) :
    Checked (Option Nat × TypeState) := do
  match s.choice? op slot with
  | some field => return (some field, s)
  | none =>
    match ← bestUnionField? s.types union (← size s.types union) with
    | some field => return (some field, s.choose op slot field)
    | none => return (none, s)

/-- Replace a union that flows out of a slot by one of its fields, and a pointer to a union by a
pointer to a field. -/
def resolveUnion (s : TypeState) (t : TypeId) (op : OpId) (slot : Slot) :
    Checked (TypeId × TypeState) := do
  let pointee ← pointee? s.types t
  let union := pointee.getD t
  let chosen ← chooseField s union op slot
  let fields ← unionFields s.types union
  match chosen.1.bind fun index => fields[index]? with
  | none => return (t, chosen.2)
  | some field =>
    match pointee with
    | none => return (field.type, chosen.2)
    | some _ =>
      let ptr ← pointerSized s.types (← size s.types t) field.type (← wordSize s.types t)
      return (ptr.id, chosen.2.withTypes ptr.table)

/-- The type that flows out of a slot holding a value, with unions resolved. -/
def flowingType (s : TypeState) (v : VarnodeId) (op : OpId) (slot : Slot) :
    Checked (TypeId × TypeState) := do
  let t ← temporary s v
  if ← needsResolution s.types t then resolveUnion s t op slot else return (t, s)

/-- A field is chosen without a fault, for an op of the graph. -/
theorem chooseField_eq (hs : Ready g s) (ht : s.types.WellFormed) {union : Nat}
    (hunion : s.types.Has union) (ho : o < g.ops.size) (slot : Slot) :
    chooseField s union o slot = .ok (Recovery.chooseField s union o slot) ∧
      ∀ x ∈ (Recovery.chooseField s union o slot).2.choices, x.1.1 < g.ops.size := by
  rw [chooseField, Recovery.chooseField]
  cases s.choice? o slot with
  | some field => exact ⟨rfl, hs.choices⟩
  | none =>
    dsimp only
    rw [size_eq hunion, ok_bind, bestUnionField?_eq ht hunion, ok_bind]
    cases s.types.bestUnionField? union (s.types.size union) with
    | none => exact ⟨rfl, hs.choices⟩
    | some field =>
      refine ⟨rfl, fun x hx => ?_⟩
      rcases List.mem_cons.mp hx with rfl | hx
      · exact ho
      · exact hs.choices x hx

/-- A union is resolved without a fault. -/
theorem resolveUnion_eq (hs : Ready g s) (hwf : s.types.WellFormed) (ht : s.types.Has t)
    (ho : o < g.ops.size) (slot : Slot) :
    resolveUnion s t o slot = .ok (Recovery.resolveUnion s t o slot) ∧
      Ready g (Recovery.resolveUnion s t o slot).2 := by
  have hlearns := (Recovery.resolveUnion_learns hwf ht o slot).1
  have hunion := Recovery.has_union hwf ht
  suffices h : resolveUnion s t o slot = .ok (Recovery.resolveUnion s t o slot) ∧
      (Recovery.resolveUnion s t o slot).2.types.Laid g.spaces.size ∧
      ∀ x ∈ (Recovery.resolveUnion s t o slot).2.choices, x.1.1 < g.ops.size from
    ⟨h.1, hs.learns hlearns h.2.1 h.2.2⟩
  clear hlearns
  rw [resolveUnion, pointee?_eq ht, ok_bind, Recovery.resolveUnion]
  generalize (s.types.pointee? t).getD t = union at hunion ⊢
  obtain ⟨hok, hchoices⟩ := chooseField_eq hs hwf hunion ho slot
  have htypes := Recovery.types_chooseField s union o slot
  dsimp only
  rw [hok, ok_bind, unionFields_eq hunion, ok_bind]
  generalize Recovery.chooseField s union o slot = chosen at hchoices htypes ⊢
  cases hf : chosen.1.bind fun index => (s.types.unionFields union)[index]? with
  | none => exact ⟨rfl, htypes ▸ hs.laid, hchoices⟩
  | some field =>
    obtain ⟨index, -, hindex⟩ := Option.bind_eq_some_iff.mp hf
    have hfield := hwf.has_unionField hunion (List.mem_of_getElem? hindex)
    cases s.types.pointee? t with
    | none => exact ⟨rfl, htypes ▸ hs.laid, hchoices⟩
    | some pointee =>
      dsimp only
      rw [size_eq ht, ok_bind, wordSize_eq ht, ok_bind, pointerSized_eq _ _ hfield, ok_bind]
      exact ⟨rfl, hs.laid.pointerSized (hs.laid.size_lt t) _ hfield, hchoices⟩

/-- The type that flows out of a slot is found without a fault. -/
theorem flowingType_eq (hs : Ready g s) (hv : v < g.varnodes.size) (ho : o < g.ops.size)
    (slot : Slot) :
    flowingType s v o slot = .ok (Recovery.flowingType s v o slot) ∧
      Ready g (Recovery.flowingType s v o slot).2 := by
  have hvalid := hs.valid_of hv
  rw [flowingType, temporary_eq hs hv, ok_bind,
    needsResolution_eq hvalid.types (hvalid.temporary v), ok_bind, Recovery.flowingType]
  split
  · exact resolveUnion_eq hs hvalid.types (hvalid.temporary v) ho slot
  · exact ⟨rfl, hs⟩

/-! ## Offers -/

/-- Whether a type may be offered to a destination at all. -/
def admits (g : Graph) (s : TypeState) (skipMerges : Bool) (e : Edge) : Checked Bool := do
  let dest ← varnode g e.dest
  let known ← typing s e.dest
  let metatype ← metatype s.types e.type
  return e.inSlot ≠ e.outSlot
    && !(dest.annotation || known.locked)
    && !(e.outSlot.isInput && known.blocked)
    && !(metatype = .bool && 1 < dest.mask)
    && !(skipMerges && e.op.opcode.isMerge)

/-- Offer the temporary type at one slot of an op to another slot. -/
def offer (g : Graph) (skipMerges : Bool) (p : Pass) (r : EdgeRef) : Checked Offer := do
  let op ← op g r.op
  match op.at? r.inSlot, op.at? r.outSlot with
  | some source, some dest =>
    let flow ← flowingType p.state source r.op r.inSlot
    let p := { p with state := flow.2 }
    let e : Edge := ⟨op, flow.1, source, dest, r.inSlot, r.outSlot⟩
    if ← admits g p.state skipMerges e then
      match ← transfer g p.state e with
      | none => return ⟨false, p⟩
      | some new =>
        let p := p.withTypes new.table
        if ← moreSpecific new.table new.id (← temporary p.state dest) then
          return ⟨true, ← setTemporary p dest new.id (.edge r.op r.inSlot r.outSlot)⟩
        else return ⟨false, p⟩
    else return ⟨false, p⟩
  | _, _ => return ⟨false, p⟩

private theorem admits_eq (hs : Ready g s) {e : Edge} (he : Leads g s e) (skip : Bool) :
    admits g s skip e = .ok (Recovery.admits g s skip e) := by
  rw [admits, varnode_eq he.dest, ok_bind, typing_eq hs he.dest, ok_bind, metatype_eq he.type,
    ok_bind]
  rfl

/-- An offer is made without a fault. -/
theorem offer_eq (hg : g.WellFormed) (hi : g.Intact) (skip : Bool) (hs : Ready g p.state)
    {r : EdgeRef} (hr : r.op < g.ops.size) :
    offer g skip p r = .ok (Recovery.offer g skip p r) ∧
      Ready g (Recovery.offer g skip p r).pass.state := by
  rw [offer, op_eq hr, ok_bind, Recovery.offer]
  cases hin : (g.op r.op).at? r.inSlot with
  | none => exact ⟨rfl, hs⟩
  | some source =>
    cases hout : (g.op r.op).at? r.outSlot with
    | none => exact ⟨rfl, hs⟩
    | some dest =>
      have hsource := hg.lt_of_at? hin
      have hdest := hg.lt_of_at? hout
      obtain ⟨hok, hflow⟩ := flowingType_eq hs hsource hr r.inSlot
      have hhas := (Recovery.flowingType_learns (hs.valid_of hsource) source r.op r.inSlot).2
      dsimp only
      rw [hok, ok_bind]
      generalize Recovery.flowingType p.state source r.op r.inSlot = flow at hflow hhas ⊢
      have hvalid := hflow.valid_of hdest
      have hleads : Leads g flow.2 ⟨g.op r.op, flow.1, source, dest, r.inSlot, r.outSlot⟩ :=
        ⟨hg.wired r.op, hsource, hdest, hhas⟩
      rw [admits_eq hflow hleads, ok_bind]
      split
      · obtain ⟨hok, hlaid⟩ := transfer_carries hflow hleads hg hi
        rw [hok, ok_bind]
        cases htransfer : Transfer.transfer g flow.2
            ⟨g.op r.op, flow.1, source, dest, r.inSlot, r.outSlot⟩ with
        | none => exact ⟨rfl, hflow⟩
        | some new =>
          have hgives := Transfer.gives_transfer hvalid hhas htransfer
          have hnew : Ready g (flow.2.withTypes new.table) :=
            hflow.withTypes hgives.grows (hlaid new htransfer)
          have hwf : new.table.WellFormed := (hnew.valid_of hdest).types
          have hold : new.table.Has ((flow.2.withTypes new.table).temporary dest) :=
            (hnew.valid_of hdest).temporary dest
          dsimp only
          rw [Pass.withTypes, temporary_eq hnew hdest, ok_bind,
            moreSpecific_eq hwf hgives.has hold, ok_bind]
          split
          · rw [setTemporary_eq hnew hdest, ok_bind]
            refine ⟨rfl, ?_⟩
            rw [Pass.state_setTemporary]
            exact hnew.setTemporary hgives.has dest
          · exact ⟨rfl, hnew⟩
      · exact ⟨rfl, hflow⟩

/-! ## Traversals -/

/-- The edges of an op that leave its slot `inSlot` for its operands. -/
def edgesToInputs (g : Graph) (o : OpId) (inSlot : Slot) : Checked (List EdgeRef) := do
  let op ← op g o
  return (List.range op.inputs.length).map fun i => ⟨o, inSlot, .input i⟩

/-- The edges of a reader that leave the first operand holding a value. -/
def readerEdges (g : Graph) (v : VarnodeId) (o : OpId) : Checked (List EdgeRef) := do
  let op ← op g o
  match op.slotOf? v with
  | none => return []
  | some index =>
    return (if op.output.isSome then [⟨o, .input index, .output⟩] else [])
      ++ (← edgesToInputs g o (.input index))

/-- The edges that leave a value. -/
def edges (g : Graph) (v : VarnodeId) : Checked (List EdgeRef) := do
  let node ← varnode g v
  let forward ← node.readers.mapM (readerEdges g v)
  match node.definition with
  | none => return forward.flatten
  | some o => return forward.flatten ++ (← edgesToInputs g o .output)

/-- Try one edge of a traversal. -/
def tryEdge (g : Graph) (skipMerges : Bool) (root : VarnodeId)
    (next : VarnodeId → Walk → Checked Walk) (w : Walk) (r : EdgeRef) : Checked Walk := do
  let result ← offer g skipMerges w.pass.countTried r
  if result.taken then
    let p := result.pass.countAccepted
    match (← op g r.op).at? r.outSlot with
    | none => return { w with pass := p }
    | some dest =>
      if dest ∈ w.visited then return { w with pass := p }
      else next dest ⟨p.enter root dest, dest :: w.visited⟩
  else return { w with pass := result.pass }

/-- Push the type of a value along its edges, depth first and at most `depth` values deep. -/
def explore (g : Graph) (skipMerges : Bool) (root : VarnodeId) :
    (depth : Nat) → VarnodeId → Walk → Checked Walk
  | 0, _, w => .ok w
  | depth + 1, v, w => do
    (← edges g v).foldlM (tryEdge g skipMerges root (explore g skipMerges root depth)) w

/-- Push the type of a value as far as it goes. -/
def propagate (g : Graph) (skipMerges : Bool) (p : Pass) (root : VarnodeId) : Checked Pass :=
  return (← explore g skipMerges root g.varnodes.size root ⟨p.enter root root, [root]⟩).pass

private theorem edgesToInputs_eq (ho : o < g.ops.size) (inSlot : Slot) :
    edgesToInputs g o inSlot = .ok (Recovery.edgesToInputs g o inSlot) := by
  rw [edgesToInputs, op_eq ho, ok_bind]
  rfl

private theorem readerEdges_eq (ho : o < g.ops.size) (v : Nat) :
    readerEdges g v o = .ok (Recovery.readerEdges g v o) := by
  rw [readerEdges, op_eq ho, ok_bind, Recovery.readerEdges]
  cases (g.op o).slotOf? v with
  | none => rfl
  | some index =>
    dsimp only
    rw [edgesToInputs_eq ho, ok_bind]
    rfl

/-- The edges of a value are found without a fault. -/
theorem edges_eq (hg : g.WellFormed) (hv : v < g.varnodes.size) :
    edges g v = .ok (Recovery.edges g v) := by
  have hforward := mapM_eq (f := readerEdges g v) (l := (g.varnode v).readers)
    fun o ho => readerEdges_eq (hg.lt_of_mem_readers ho) v
  rw [edges, varnode_eq hv, ok_bind, hforward, ok_bind, Recovery.edges]
  cases hdef : (g.varnode v).definition with
  | none => exact congrArg Except.ok (List.append_nil _).symm
  | some o =>
    dsimp only
    rw [edgesToInputs_eq (hg.lt_of_definition hdef), ok_bind]
    rfl

/-- The edges of a value are of ops that exist. -/
theorem lt_of_mem_edges (hg : g.WellFormed) {r : EdgeRef} (h : r ∈ Recovery.edges g v) :
    r.op < g.ops.size := by
  have hinputs {o : Nat} {inSlot : Slot} (hr : r ∈ Recovery.edgesToInputs g o inSlot) :
      r.op = o := by
    obtain ⟨i, -, rfl⟩ := List.mem_map.mp hr
    rfl
  rw [Recovery.edges, List.mem_append, List.mem_flatMap] at h
  rcases h with ⟨o, ho, hr⟩ | hdef
  · have hop : r.op = o := by
      rw [Recovery.readerEdges] at hr
      split at hr
      · cases hr
      · rcases List.mem_append.mp hr with hout | hr
        · split at hout
          · rw [List.mem_singleton.mp hout]
          · cases hout
        · exact hinputs hr
    exact hop ▸ hg.lt_of_mem_readers ho
  · cases hd : (g.varnode v).definition with
    | none => rw [hd] at hdef; cases hdef
    | some o =>
      rw [hd] at hdef
      exact hinputs hdef ▸ hg.lt_of_definition hd

/-- An edge is tried without a fault, if its end can be gone on from. -/
theorem tryEdge_eq (hg : g.WellFormed) (hi : g.Intact) (skip : Bool) (root : Nat)
    {next : VarnodeId → Walk → Checked Walk} {total : VarnodeId → Walk → Walk}
    (hnext : ∀ v < g.varnodes.size, ∀ w : Walk, Ready g w.pass.state →
      next v w = .ok (total v w) ∧ Ready g (total v w).pass.state)
    {w : Walk} (hw : Ready g w.pass.state) {r : EdgeRef} (hr : r.op < g.ops.size) :
    tryEdge g skip root next w r = .ok (Recovery.tryEdge g skip root total w r) ∧
      Ready g (Recovery.tryEdge g skip root total w r).pass.state := by
  have hcounted : Ready g w.pass.countTried.state := hw
  obtain ⟨hok, hready⟩ := offer_eq hg hi skip hcounted hr
  rw [tryEdge, hok, ok_bind, Recovery.tryEdge]
  generalize Recovery.offer g skip w.pass.countTried r = result at hready ⊢
  dsimp only
  split
  · rw [op_eq hr, ok_bind]
    cases hout : (g.op r.op).at? r.outSlot with
    | none => exact ⟨rfl, hready⟩
    | some dest =>
      dsimp only
      split
      · exact ⟨rfl, hready⟩
      · exact hnext dest (hg.lt_of_at? hout) _ hready
  · exact ⟨rfl, hready⟩

/-- A traversal reads and changes values that exist, however deep it goes. -/
theorem explore_eq (hg : g.WellFormed) (hi : g.Intact) (skip : Bool) (root depth : Nat)
    (hv : v < g.varnodes.size) {w : Walk} (hw : Ready g w.pass.state) :
    explore g skip root depth v w = .ok (Recovery.explore g skip root depth v w) ∧
      Ready g (Recovery.explore g skip root depth v w).pass.state := by
  induction depth generalizing v w with
  | zero => exact ⟨rfl, hw⟩
  | succ depth ih =>
    rw [explore, edges_eq hg hv, ok_bind, Recovery.explore]
    exact foldlM_eq (P := fun w : Walk => Ready g w.pass.state) hw fun r hr w hw =>
      tryEdge_eq hg hi skip root (fun v hv w hw => ih hv hw) hw (lt_of_mem_edges hg hr)

/-- The type of a value is pushed without a fault. -/
theorem propagate_eq (hg : g.WellFormed) (hi : g.Intact) (skip : Bool) (hs : Ready g p.state)
    {root : Nat} (hroot : root < g.varnodes.size) :
    propagate g skip p root = .ok (Recovery.propagate g skip p root) ∧
      Ready g (Recovery.propagate g skip p root).state := by
  have hstart : Ready g (p.enter root root).state := hs
  obtain ⟨hok, hready⟩ := explore_eq (w := ⟨p.enter root root, [root]⟩) hg hi skip root
    g.varnodes.size hroot hstart
  rw [propagate, hok, ok_bind]
  exact ⟨rfl, hready⟩

end Checked

end TypeRecovery
