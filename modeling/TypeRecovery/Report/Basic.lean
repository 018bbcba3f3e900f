import TypeRecovery.Description.Build
import TypeRecovery.Recovery.Round
import TypeRecovery.Report.Flow
import TypeRecovery.Report.Verify
import TypeRecovery.Json.Printer
import TypeRecovery.Decimal.Shortest

/-!
# Reports

How much of a function ended up typed, which kinds of types it got, and where its data flow loops.
-/

namespace TypeRecovery

/-- How many observable values have a type. -/
structure Coverage where
  /-- Observable values. -/
  observable : Nat
  /-- Those of which something is known. -/
  typed : Nat
  /-- Those with fixed types. -/
  locked : Nat
  deriving DecidableEq, Repr

/-- Typed values in per cent of the observable ones, zero when there are none. -/
def Coverage.percentage (c : Coverage) : Float :=
  if c.observable = 0 then 0 else Float.ofNat c.typed / Float.ofNat c.observable * 100

/-- Coverage as a record. -/
def Coverage.toJson (c : Coverage) : Json :=
  .record
    [("observable_values", .nat c.observable), ("typed_values", .nat c.typed),
      ("locked_values", .nat c.locked),
      ("coverage_percentage", .number (.ofFloat c.percentage))]

/-- How many observable values have each kind of type. -/
structure Distribution where
  /-- Nothing known. -/
  unknown : Nat
  /-- Signed and unsigned integers. -/
  integer : Nat
  /-- Booleans. -/
  boolean : Nat
  /-- Floating-point numbers. -/
  float : Nat
  /-- Pointers. -/
  pointer : Nat
  /-- Structures, unions and arrays. -/
  aggregate : Nat
  /-- All others. -/
  other : Nat
  deriving DecidableEq, Repr

namespace Distribution

/-- The distribution of a list of metatypes. -/
def ofMetatypes (ms : List Metatype) : Distribution where
  unknown := ms.countP (· = .unknown)
  integer := ms.countP fun m => m = .int || m = .uint
  boolean := ms.countP (· = .bool)
  float := ms.countP (· = .float)
  pointer := ms.countP (· = .ptr)
  aggregate := ms.countP fun m => m = .struct || m = .union || m = .array
  other := ms.countP fun m => m = .code || m = .spacebase || m = .void

/-- The number of values. -/
def total (d : Distribution) : Nat :=
  d.unknown + d.integer + d.boolean + d.float + d.pointer + d.aggregate + d.other

/-- The counts of a distribution by name. -/
def members (d : Distribution) : List (String × Json) :=
  [("unknown", .nat d.unknown), ("integer", .nat d.integer), ("boolean", .nat d.boolean),
    ("float", .nat d.float), ("pointer", .nat d.pointer), ("aggregate", .nat d.aggregate),
    ("other", .nat d.other)]

end Distribution

/-- One observable value and its committed type. -/
structure ValueReport where
  /-- Label of the value. -/
  name : String
  /-- Name of its space. -/
  space : String
  /-- Its offset in the space. -/
  offset : UInt64
  /-- Its size in bytes. -/
  size : Nat
  /-- Name of its type. -/
  type : String
  /-- Classification of its type. -/
  metatype : Metatype
  /-- Whether its type is fixed. -/
  locked : Bool
  deriving DecidableEq, Repr

/-- A value as a record. -/
def ValueReport.toJson (v : ValueReport) : Json :=
  .record
    [("name", .str v.name), ("space", .str v.space), ("offset", .nat v.offset.toNat),
      ("size", .nat v.size), ("type", .str v.type), ("metatype", .str v.metatype.name),
      ("locked", .bool v.locked)]

/-- An outcome as a record. -/
def Outcome.toJson : Outcome → Json
  | .changed round => .record [("outcome", .str "changed"), ("round", .nat round)]
  | outcome => .record [("outcome", .str outcome.name)]

/-- Counters as a record. -/
def Stats.toJson (s : Stats) : Json :=
  .record
    [("edges_tried", .nat s.edgesTried), ("edges_accepted", .nat s.edgesAccepted),
      ("values_entered", .nat s.valuesEntered)]

/-- What there is to say about a function. -/
structure Report where
  /-- Name of the function. -/
  name : String
  /-- Outcome of the last call for a round, if there was one. -/
  outcome : Option Outcome
  /-- The state of the rounds. -/
  progress : Progress
  /-- Whether the number of rounds reached its limit. -/
  exceeded : Bool
  /-- Warnings. -/
  warnings : List String
  /-- How many values have a type. -/
  coverage : Coverage
  /-- Which kinds of types they have. -/
  distribution : Distribution
  /-- Labels of the values on cycles of data flow. -/
  cycles : List (List String)
  /-- The observable values. -/
  values : List ValueReport
  deriving DecidableEq, Repr

/-- A report as a record, with the coverage written by `coverage`. -/
def Report.toJsonWith (coverage : Coverage → Json) (r : Report) : Json :=
  .record
    [("name", .str r.name), ("outcome", .optional Outcome.toJson r.outcome),
      ("rounds", .nat r.progress.rounds), ("phase", .str r.progress.phase.name),
      ("exceeded", .bool r.exceeded), ("warnings", .list .str r.warnings),
      ("last_stats", r.progress.stats.toJson), ("coverage", coverage r.coverage),
      ("distribution", .record r.distribution.members),
      ("cycles", .list (.list .str) r.cycles), ("values", .list ValueReport.toJson r.values)]

/-- A report as a record. -/
def Report.toJson (r : Report) : Json := r.toJsonWith Coverage.toJson

namespace Routine

/-- The coverage of a function. -/
def coverage (r : Routine) : Coverage :=
  let values := r.observablesInOrder
  { observable := values.length
    typed := values.countP fun v => r.state.types.metatype (r.state.committed v) ≠ .unknown
    locked := values.countP r.state.locked }

/-- The distribution of the types of a function. -/
def distribution (r : Routine) : Distribution :=
  .ofMetatypes (r.observablesInOrder.map fun v => r.state.types.metatype (r.state.committed v))

end Routine

namespace NamedRoutine

/-- The report on a value. -/
def reportValue (n : NamedRoutine) (v : VarnodeId) : ValueReport :=
  let node := n.routine.graph.varnode v
  let type := n.routine.state.committed v
  { name := n.label v
    space := (n.routine.graph.spaces.get node.address.space).name
    offset := node.address.offset
    size := node.size
    type := n.routine.state.types.name type
    metatype := n.routine.state.types.metatype type
    locked := n.routine.state.locked v }

/-- The report on a function. With `namedOnly`, values without a name are not listed. -/
def report (n : NamedRoutine) (outcome : Option Outcome) (namedOnly : Bool) : Report where
  name := n.routine.graph.name
  outcome := outcome
  progress := n.routine.progress
  exceeded := n.routine.exceeded
  warnings := n.routine.warnings
  coverage := n.routine.coverage
  distribution := n.routine.distribution
  cycles := n.routine.graph.feedbackCycles.map (·.map n.label)
  values :=
    (n.routine.graph.observables.filter fun v => !namedOnly || (n.nameOf? v).isSome).map
      n.reportValue

end NamedRoutine

end TypeRecovery
