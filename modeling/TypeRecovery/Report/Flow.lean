import TypeRecovery.Graph.Basic

/-!
# Data flow between values

A value flows into another when a live op reads the first and writes the second. Constants do not
flow. Values that flow back into themselves form cycles, through which a type can come back to the
value it started from.
-/

namespace TypeRecovery

namespace Graph

/-- The values that a value flows into directly. -/
def successors (g : Graph) (v : VarnodeId) : List VarnodeId :=
  if (g.varnode v).constant then []
  else g.ops.toList.filterMap fun op => if !op.dead && v ∈ op.inputs then op.output else none

/-- All values that can be reached from a frontier, with those seen before. Each value joins the
frontier once, so `fuel` need not exceed the number of values. -/
def closure (g : Graph) : (fuel : Nat) → (frontier seen : List VarnodeId) → List VarnodeId
  | 0, _, seen => seen
  | _ + 1, [], seen => seen
  | fuel + 1, v :: frontier, seen =>
    let new := ((g.successors v).filter (· ∉ seen)).eraseDups
    g.closure fuel (new ++ frontier) (new ++ seen)

/-- The values that a value flows into through any number of ops. -/
def reachable (g : Graph) (v : VarnodeId) : List VarnodeId :=
  let start := (g.successors v).eraseDups
  g.closure g.varnodes.size start start

/-- The values that a value reaches and that reach it, in order; empty when the value is on no
cycle. -/
def cycleOf (g : Graph) (reach : Array (List VarnodeId)) (v : VarnodeId) : List VarnodeId :=
  (List.range g.varnodes.size).filter fun w =>
    w ∈ (reach[v]?).getD [] && v ∈ (reach[w]?).getD []

/-- The cycles of data flow, each in order and listed by its first value. -/
def feedbackCycles (g : Graph) : List (List VarnodeId) :=
  let reach := (Array.range g.varnodes.size).map g.reachable
  (List.range g.varnodes.size).filterMap fun v =>
    let cycle := g.cycleOf reach v
    if cycle.head? = some v then some cycle else none

/-- A step of data flow through an op. -/
structure FlowEdge where
  /-- The value that is read. -/
  source : VarnodeId
  /-- The value that is written. -/
  dest : VarnodeId
  /-- The op. -/
  op : OpId
  deriving DecidableEq, Repr

/-- The values and steps of data flow, in the order in which they are met. -/
structure FlowGraph where
  /-- The values. -/
  nodes : List VarnodeId
  /-- The steps. -/
  edges : List FlowEdge
  deriving DecidableEq, Repr

/-- Add a value unless it is there. -/
def FlowGraph.addNode (f : FlowGraph) (v : VarnodeId) : FlowGraph :=
  if v ∈ f.nodes then f else { f with nodes := f.nodes ++ [v] }

/-- Add a step and the value it starts from; constants have no steps. -/
def FlowGraph.addStep (g : Graph) (o : OpId) (out : VarnodeId) (f : FlowGraph) (v : VarnodeId) :
    FlowGraph :=
  if (g.varnode v).constant then f
  else
    let f := f.addNode v
    { f with edges := f.edges ++ [⟨v, out, o⟩] }

/-- Add the steps through an op. -/
def FlowGraph.addOp (g : Graph) (f : FlowGraph) (o : OpId) : FlowGraph :=
  let op := g.op o
  match op.output with
  | none => f
  | some out => if op.dead then f else op.inputs.foldl (addStep g o out) (f.addNode out)

/-- The data flow of a function: first its observable values other than constants, in location
order, then what its live ops add. -/
def flowGraph (g : Graph) : FlowGraph :=
  (List.range g.ops.size).foldl (FlowGraph.addOp g)
    ⟨g.observables.filter fun v => !(g.varnode v).constant, []⟩

end Graph

end TypeRecovery
