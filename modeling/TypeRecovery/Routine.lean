import TypeRecovery.DataType.Layout
import TypeRecovery.Graph.Mask

/-!
# Functions under type recovery

A routine is a function graph with what has been recovered about the types of its values. The
graph is fixed while types are recovered: a round of recovery replaces only the other parts.
-/

namespace TypeRecovery

/-- What is known of the type of one value. -/
structure Typing where
  /-- The type that was settled on. -/
  committed : TypeId
  /-- The type of the round in progress. -/
  temporary : TypeId
  /-- Whether the committed type is fixed. -/
  locked : Bool := false
  /-- Whether the type must not be inferred from how the value is read. -/
  blocked : Bool := false
  deriving DecidableEq, Repr, Inhabited

/-- The fields chosen for unions that flow out of a slot of an op, the latest choice first. -/
abbrev UnionChoices := List ((OpId × Slot) × Nat)

/-- The types of a function and of its values. -/
structure TypeState where
  /-- The table of types. -/
  types : TypeTable
  /-- The types of the values, in the order of the values. -/
  values : Array Typing := #[]
  /-- The fields chosen for unions. -/
  choices : UnionChoices := []
  deriving DecidableEq, Repr, Inhabited

namespace TypeState

/-- What is known of a value. -/
def typing (s : TypeState) (v : VarnodeId) : Typing := (s.values[v]?).getD default

/-- The committed type of a value. -/
def committed (s : TypeState) (v : VarnodeId) : TypeId := (s.typing v).committed

/-- The temporary type of a value. -/
def temporary (s : TypeState) (v : VarnodeId) : TypeId := (s.typing v).temporary

/-- Whether the type of a value is fixed. -/
def locked (s : TypeState) (v : VarnodeId) : Bool := (s.typing v).locked

/-- Whether the type of a value must not be inferred from how it is read. -/
def blocked (s : TypeState) (v : VarnodeId) : Bool := (s.typing v).blocked

/-- Change what is known of a value. -/
def modify (s : TypeState) (v : VarnodeId) (f : Typing → Typing) : TypeState :=
  { s with values := s.values.modify v f }

/-- Replace the temporary type of a value. -/
def setTemporary (s : TypeState) (v : VarnodeId) (t : TypeId) : TypeState :=
  s.modify v fun y => { y with temporary := t }

/-- Forbid to infer the type of a value from how it is read. -/
def block (s : TypeState) (v : VarnodeId) : TypeState :=
  s.modify v fun y => { y with blocked := true }

/-- Fix the committed and the temporary type of a value. -/
def lock (s : TypeState) (v : VarnodeId) (t : TypeId) : TypeState :=
  s.modify v fun y => { y with committed := t, temporary := t, locked := true }

/-- Whether committing a type to a value changes it: locked values never change. -/
def canCommit (s : TypeState) (v : VarnodeId) (t : TypeId) : Bool :=
  s.committed v ≠ t && !s.locked v

/-- Commit a type to a value unless the value is locked. -/
def commit (s : TypeState) (v : VarnodeId) (t : TypeId) : TypeState :=
  if s.canCommit v t then s.modify v fun y => { y with committed := t } else s

/-- The field chosen for the union that flows out of a slot. -/
def choice? (s : TypeState) (op : OpId) (slot : Slot) : Option Nat :=
  s.choices.lookup (op, slot)

/-- Choose the field of the union that flows out of a slot. -/
def choose (s : TypeState) (op : OpId) (slot : Slot) (field : Nat) : TypeState :=
  { s with choices := ((op, slot), field) :: s.choices }

/-- Replace the table of types. -/
def withTypes (s : TypeState) (t : TypeTable) : TypeState := { s with types := t }

end TypeState

/-- Where a function is in type recovery. -/
inductive Phase where
  /-- No round was run. -/
  | idle
  /-- The last round changed something. -/
  | running
  /-- The last round changed nothing. -/
  | converged
  /-- The number of rounds reached its limit. -/
  | capped
  deriving DecidableEq, Repr, Inhabited

/-- The word for a phase. -/
def Phase.name : Phase → String
  | idle => "idle"
  | running => "running"
  | converged => "converged"
  | capped => "capped"

/-- Counters of traversals. -/
structure Stats where
  /-- Edges along which a type was offered. -/
  edgesTried : Nat := 0
  /-- Edges along which a type was taken. -/
  edgesAccepted : Nat := 0
  /-- Values from which edges were tried. -/
  valuesEntered : Nat := 0
  deriving DecidableEq, Repr, Inhabited

/-- The state of the rounds of a function. -/
structure Progress where
  /-- Rounds that changed a committed type. -/
  rounds : Nat
  /-- Where the function is. -/
  phase : Phase
  /-- Counters of the latest round. -/
  stats : Stats
  /-- Before the first round none has changed anything. -/
  fresh : phase = .idle → rounds = 0
  deriving DecidableEq, Repr

namespace Progress

/-- No round has run. -/
def start : Progress := ⟨0, .idle, {}, fun _ => rfl⟩

instance : Inhabited Progress := ⟨start⟩

/-- The latest round changed something, as a number of rounds did. -/
def running (rounds : Nat) (stats : Stats) : Progress :=
  ⟨rounds, .running, stats, Phase.noConfusion⟩

/-- The latest round changed nothing. -/
def converge (p : Progress) (stats : Stats) : Progress :=
  ⟨p.rounds, .converged, stats, Phase.noConfusion⟩

/-- The number of rounds reached its limit. -/
def giveUp (p : Progress) : Progress := ⟨p.rounds, .capped, p.stats, Phase.noConfusion⟩

/-- Whether no further round will change anything. -/
def isFinished (p : Progress) : Bool := p.phase = .converged || p.phase = .capped

end Progress

/-- A function under type recovery. -/
structure Routine where
  /-- The function graph. -/
  graph : Graph
  /-- The types of the function and its values. -/
  state : TypeState
  /-- The state of the rounds. -/
  progress : Progress := .start
  /-- Whether type recovery has started. -/
  started : Bool := true
  /-- Whether the number of rounds ever reached its limit. -/
  exceeded : Bool := false
  /-- Warnings for the head of the function, the oldest first. -/
  warnings : List String := []
  deriving DecidableEq, Repr, Inhabited

namespace Routine

/-- The function without values. -/
def empty (name : String) (spaces : SpaceTable) (stack : SpaceId) (types : TypeTable) :
    Routine where
  graph := { name, spaces, stack }
  state := { types }

/-- Change the graph. -/
def modifyGraph (r : Routine) (f : Graph → Graph) : Routine := { r with graph := f r.graph }

/-- Change the types. -/
def modifyState (r : Routine) (f : TypeState → TypeState) : Routine := { r with state := f r.state }

/-- Replace the table of types. -/
def withTypes (r : Routine) (t : TypeTable) : Routine := r.modifyState (·.withTypes t)

/-- Add a value of unknown type. -/
def addVarnode (r : Routine) (node : Varnode) : Routine :=
  let type := r.state.types.unknown node.size
  { r with
    graph := r.graph.addVarnode node
    state := { r.state with
      types := type.table
      values := r.state.values.push { committed := type.id, temporary := type.id } } }

/-- Add a value that may hold anything of its size. -/
def newVarnode (r : Routine) (size : Nat) (address : Address) : Routine :=
  r.addVarnode { address, size, mask := byteMask size }

/-- Add a value that exists on entry to the function. -/
def newInput (r : Routine) (size : Nat) (address : Address) : Routine :=
  r.addVarnode { address, size, mask := byteMask size, input := true }

/-- Add a constant, cut to its size. -/
def newConstant (r : Routine) (size : Nat) (value : UInt64) : Routine :=
  let value := value &&& byteMask size
  r.addVarnode
    { address := ⟨SpaceTable.constantSpace, value⟩, size, mask := value, constant := true }

/-- Add an op, unless the graph refuses it. -/
def tryOp (r : Routine) (op : Op) : Answer Routine OpId :=
  (r.graph.addOp op).mapState fun graph => { r with graph }

/-- The function with an op added to it, where the graph takes the op. -/
def newOp (r : Routine) (op : Op) : Except GraphError Routine := (r.tryOp op).success

/-- Attach a warning to the head of the function. -/
def warn (r : Routine) (text : String) : Routine := { r with warnings := r.warnings ++ [text] }

end Routine

end TypeRecovery
