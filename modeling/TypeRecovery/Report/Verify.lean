import TypeRecovery.Routine
import TypeRecovery.Json.Basic

/-!
# Consistency of the recovered types

Checks on the committed types of a function after type recovery.
-/

namespace TypeRecovery

/-- Something wrong with the type of a value. -/
inductive Violation where
  /-- The temporary type is not the committed one. -/
  | temporaryDiffers (value : VarnodeId)
  /-- The type is boolean, and the value may be other than zero or one. -/
  | wideBoolean (value : VarnodeId) (mask : UInt64)
  /-- The type does not have the size of the value. -/
  | sizeMismatch (value : VarnodeId) (valueSize typeSize : Nat)
  /-- The type was fixed and is another one now. -/
  | lockedChanged (value : VarnodeId) (before after : String)
  deriving DecidableEq, Repr

/-- A violation as a record. -/
def Violation.toJson : Violation → Json
  | temporaryDiffers value => .record [("kind", .str "temp_differs"), ("value", .nat value)]
  | wideBoolean value mask =>
    .record [("kind", .str "wide_boolean"), ("value", .nat value), ("nz_mask", .nat mask.toNat)]
  | sizeMismatch value valueSize typeSize =>
    .record
      [("kind", .str "size_mismatch"), ("value", .nat value), ("value_size", .nat valueSize),
        ("type_size", .nat typeSize)]
  | lockedChanged value before after =>
    .record
      [("kind", .str "locked_changed"), ("value", .nat value), ("before", .str before),
        ("after", .str after)]

/-- Fixed types of values, noted at some moment. -/
abbrev LockedTypes := List (VarnodeId × TypeId)

/-- The result of checking a function. -/
structure Verification where
  /-- The number of values that were checked. -/
  checked : Nat
  /-- What is wrong, by value. -/
  violations : List Violation
  deriving DecidableEq, Repr

namespace Routine

/-- The values with fixed types, and these types. -/
def lockedTypes (r : Routine) : LockedTypes :=
  (List.range r.graph.varnodes.size).filterMap fun v =>
    if r.state.locked v then some (v, r.state.committed v) else none

/-- The observable values in order. -/
def observablesInOrder (r : Routine) : List VarnodeId :=
  (List.range r.graph.varnodes.size).filter fun v => (r.graph.varnode v).isObservable

/-- What is wrong with the type of a value. -/
def valueViolations (r : Routine) (v : VarnodeId) : List Violation :=
  let node := r.graph.varnode v
  let type := r.state.committed v
  let types := r.state.types
  (if r.state.temporary v ≠ type then [.temporaryDiffers v] else [])
    ++ (if types.metatype type = .bool ∧ 1 < node.mask then [.wideBoolean v node.mask] else [])
    ++ (if types.size type ≠ node.size then [.sizeMismatch v node.size (types.size type)] else [])

/-- A fixed type that did not stay. -/
def lockViolation? (r : Routine) (noted : VarnodeId × TypeId) : Option Violation :=
  let after := r.state.committed noted.1
  if after ≠ noted.2 then
    some (.lockedChanged noted.1 (r.state.types.name noted.2) (r.state.types.name after))
  else none

/-- Check all observable values, and that the noted types stayed. -/
def verify (r : Routine) (noted : LockedTypes) : Verification where
  checked := r.observablesInOrder.length
  violations := r.observablesInOrder.flatMap r.valueViolations ++ noted.filterMap r.lockViolation?

end Routine

end TypeRecovery
