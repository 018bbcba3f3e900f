import TypeRecovery.Transfer.Edge

/-!
# The flow of types through a graph

A pass works on the types of a fixed graph. It offers the temporary type at one slot of an op to
another slot, and the offer is taken only if it is strictly more specific than the type already
there. Every change of a temporary type is an event, so that the events of a pass account for all
of its changes.
-/

namespace TypeRecovery

/-- Why a temporary type changed. -/
inductive Cause where
  /-- The first guess of a round. -/
  | seed
  /-- An offer along an edge of an op was taken. -/
  | edge (op : OpId) (inSlot outSlot : Slot)
  /-- The value is returned and got the type of the returned values. -/
  | unifiedReturn
  /-- The value is part of the frame and got its type from a pointer into the frame. -/
  | stackAlias
  deriving DecidableEq, Repr

/-- What happens during a pass. -/
inductive Event where
  /-- A traversal that started at `root` goes on from `value`. -/
  | entered (root value : VarnodeId)
  /-- The temporary type of `value` was replaced. -/
  | changed (value : VarnodeId) (before after : TypeId) (cause : Cause)
  deriving DecidableEq, Repr

/-- The working state of a pass. -/
structure Pass where
  /-- The types. -/
  state : TypeState
  /-- Counters over all traversals. -/
  stats : Stats := {}
  /-- The events so far, the oldest first. -/
  events : Array Event := #[]
  deriving DecidableEq, Repr

namespace Pass

/-- Replace the temporary type of a value; replacing it by itself is no event. -/
def setTemporary (p : Pass) (v : VarnodeId) (t : TypeId) (cause : Cause) : Pass :=
  if p.state.temporary v = t then p
  else
    { p with
      state := p.state.setTemporary v t
      events := p.events.push (.changed v (p.state.temporary v) t cause) }

/-- Replace the table of types. -/
def withTypes (p : Pass) (t : TypeTable) : Pass := { p with state := p.state.withTypes t }

/-- Count an edge that was tried. -/
def countTried (p : Pass) : Pass :=
  { p with stats := { p.stats with edgesTried := p.stats.edgesTried + 1 } }

/-- Count an edge along which a type was taken. -/
def countAccepted (p : Pass) : Pass :=
  { p with stats := { p.stats with edgesAccepted := p.stats.edgesAccepted + 1 } }

/-- Count and note that a traversal goes on from a value. -/
def enter (p : Pass) (root v : VarnodeId) : Pass :=
  { p with
    stats := { p.stats with valuesEntered := p.stats.valuesEntered + 1 }
    events := p.events.push (.entered root v) }

end Pass

/-- The place of an edge in the graph. -/
structure EdgeRef where
  /-- The op. -/
  op : OpId
  /-- The slot the type comes from. -/
  inSlot : Slot
  /-- The slot the type goes to. -/
  outSlot : Slot
  deriving DecidableEq, Repr

namespace Recovery

/-- The field of a union that flows out of a slot: the one chosen before, or the most specific one
as wide as the union, which is then remembered. -/
def chooseField (s : TypeState) (union : TypeId) (op : OpId) (slot : Slot) :
    Option Nat × TypeState :=
  match s.choice? op slot with
  | some field => (some field, s)
  | none =>
    match s.types.bestUnionField? union (s.types.size union) with
    | some field => (some field, s.choose op slot field)
    | none => (none, s)

/-- Replace a union that flows out of a slot by one of its fields, and a pointer to a union by a
pointer to a field. Without a field the type stays as it is. -/
def resolveUnion (s : TypeState) (t : TypeId) (op : OpId) (slot : Slot) : TypeId × TypeState :=
  let union := (s.types.pointee? t).getD t
  let chosen := chooseField s union op slot
  match chosen.1.bind fun index => (s.types.unionFields union)[index]? with
  | none => (t, chosen.2)
  | some field =>
    match s.types.pointee? t with
    | none => (field.type, chosen.2)
    | some _ =>
      let ptr := s.types.pointerSized (s.types.size t) field.type (s.types.wordSize t)
      (ptr.id, chosen.2.withTypes ptr.table)

/-- The type that flows out of a slot holding a value, with unions resolved. -/
def flowingType (s : TypeState) (v : VarnodeId) (op : OpId) (slot : Slot) : TypeId × TypeState :=
  if s.types.needsResolution (s.temporary v) then resolveUnion s (s.temporary v) op slot
  else (s.temporary v, s)

/-- Whether a type may be offered to a destination at all. -/
def admits (g : Graph) (s : TypeState) (skipMerges : Bool) (e : Edge) : Bool :=
  let dest := g.varnode e.dest
  e.inSlot ≠ e.outSlot
    && !(dest.annotation || s.locked e.dest)
    && !(e.outSlot.isInput && s.blocked e.dest)
    && !(s.types.metatype e.type = .bool && 1 < dest.mask)
    && !(skipMerges && e.op.opcode.isMerge)

/-- The result of offering a type along an edge. -/
structure Offer where
  /-- Whether the type was taken. -/
  taken : Bool
  /-- The pass after the offer. -/
  pass : Pass
  deriving DecidableEq, Repr

/-- Offer the temporary type at one slot of an op to another slot. Resolving a union may intern a
type and remember a field also when the offer is not taken. -/
def offer (g : Graph) (skipMerges : Bool) (p : Pass) (r : EdgeRef) : Offer :=
  let op := g.op r.op
  match op.at? r.inSlot, op.at? r.outSlot with
  | some source, some dest =>
    let flow := flowingType p.state source r.op r.inSlot
    let p := { p with state := flow.2 }
    let e : Edge := ⟨op, flow.1, source, dest, r.inSlot, r.outSlot⟩
    if admits g p.state skipMerges e then
      match Transfer.transfer g p.state e with
      | none => ⟨false, p⟩
      | some new =>
        let p := p.withTypes new.table
        if new.table.moreSpecific new.id (p.state.temporary dest) then
          ⟨true, p.setTemporary dest new.id (.edge r.op r.inSlot r.outSlot)⟩
        else ⟨false, p⟩
    else ⟨false, p⟩
  | _, _ => ⟨false, p⟩

/-- The edges of an op that leave its slot `inSlot` for its operands. -/
def edgesToInputs (g : Graph) (o : OpId) (inSlot : Slot) : List EdgeRef :=
  (List.range (g.op o).inputs.length).map fun i => ⟨o, inSlot, .input i⟩

/-- The edges of a reader that leave the first operand holding a value. -/
def readerEdges (g : Graph) (v : VarnodeId) (o : OpId) : List EdgeRef :=
  match (g.op o).slotOf? v with
  | none => []
  | some index =>
    (if (g.op o).output.isSome then [⟨o, .input index, .output⟩] else [])
      ++ edgesToInputs g o (.input index)

/-- The edges that leave a value: through its readers in order, and then back through the op that
writes it. -/
def edges (g : Graph) (v : VarnodeId) : List EdgeRef :=
  (g.varnode v).readers.flatMap (readerEdges g v)
    ++ (g.varnode v).definition.elim [] fun o => edgesToInputs g o .output

/-- A pass with the values that the traversal in progress has entered, the latest first. -/
structure Walk where
  /-- The pass. -/
  pass : Pass
  /-- The values entered. -/
  visited : List VarnodeId
  deriving DecidableEq, Repr

/-- Try one edge of a traversal. If the type is taken at a value that was not entered yet, the
traversal enters it and goes on from there by `next` before the edges that are left. -/
def tryEdge (g : Graph) (skipMerges : Bool) (root : VarnodeId)
    (next : VarnodeId → Walk → Walk) (w : Walk) (r : EdgeRef) : Walk :=
  let result := offer g skipMerges w.pass.countTried r
  if result.taken then
    let p := result.pass.countAccepted
    match (g.op r.op).at? r.outSlot with
    | none => { w with pass := p }
    | some dest =>
      if dest ∈ w.visited then { w with pass := p }
      else next dest ⟨p.enter root dest, dest :: w.visited⟩
  else { w with pass := result.pass }

/-- Push the type of a value along its edges, depth first and at most `depth` values deep. -/
def explore (g : Graph) (skipMerges : Bool) (root : VarnodeId) :
    (depth : Nat) → VarnodeId → Walk → Walk
  | 0, _, w => w
  | depth + 1, v, w =>
    (edges g v).foldl (tryEdge g skipMerges root (explore g skipMerges root depth)) w

/-- Push the type of a value as far as it goes. Each value is entered at most once, so a traversal
is never deeper than there are values. -/
def propagate (g : Graph) (skipMerges : Bool) (p : Pass) (root : VarnodeId) : Pass :=
  (explore g skipMerges root g.varnodes.size root ⟨p.enter root root, [root]⟩).pass

end Recovery

end TypeRecovery
