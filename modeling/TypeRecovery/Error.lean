/-!
# Faults of a graph

Everything that can be wrong with a function graph, its types and its description, and the
sentence that reports it.
-/

namespace TypeRecovery

/-- What is wrong with the layout of a data type. -/
inductive LayoutFault where
  /-- An array has no elements, or elements of no size. -/
  | emptyArray
  /-- The size of an array does not fit 32 bits. -/
  | arrayOverflow
  /-- A field starts before the end of the previous one or ends after the structure. -/
  | misplacedField (field : String)
  /-- A field is not at the start of the union or is wider than it. -/
  | oversizedField (field : String)
  /-- The name already belongs to a type of another layout. -/
  | redeclared
  deriving DecidableEq, Repr

/-- The reason given for a layout fault. -/
def LayoutFault.message : LayoutFault → String
  | emptyArray => "arrays need a sized element and a non-zero count"
  | arrayOverflow => "array size overflows"
  | misplacedField field => "field '" ++ field ++ "' overlaps or runs past the end"
  | oversizedField field => "field '" ++ field ++ "' does not fit the union"
  | redeclared => "redeclared with a different layout"

/-- What is wrong with the parts of a graph taken together. -/
inductive GraphFault where
  /-- Two address spaces have one name. -/
  | duplicateSpace (name : String)
  /-- A second space of constants was declared. -/
  | secondConstantSpace
  /-- There are more address spaces than identifiers for them. -/
  | tooManySpaces
  /-- Two varnodes have one name. -/
  | duplicateVarnode (name : String)
  /-- A varnode of zero bytes was declared. -/
  | emptyVarnode (name : String)
  /-- A varnode is bound to a symbol that was not declared. -/
  | unknownSymbol (name : String)
  deriving DecidableEq, Repr

/-- The sentence that reports a graph fault. -/
def GraphFault.message : GraphFault → String
  | duplicateSpace name => "address space '" ++ name ++ "' defined twice"
  | secondConstantSpace => "only one constant space may exist"
  | tooManySpaces => "too many address spaces"
  | duplicateVarnode name => "varnode '" ++ name ++ "' defined twice"
  | emptyVarnode name => "varnode '" ++ name ++ "' has no size"
  | unknownSymbol name => "unknown symbol '" ++ name ++ "'"

/-- Why a graph could not be built or extended. -/
inductive GraphError where
  /-- A space was named that does not exist. -/
  | unknownSpace (name : String)
  /-- A varnode was named that does not exist. -/
  | unknownVarnode (name : String)
  /-- A type expression denotes no type. -/
  | unknownType (expr : String)
  /-- The op at `address` has only `inputs` operands, and `slot` is needed. -/
  | slotOutOfRange (slot : Nat) (address : Nat) (inputs : Nat)
  /-- The varnode with this label cannot be written, or is written already. -/
  | duplicateOutput (varnode : String)
  /-- The parts of the graph do not fit together. -/
  | invalidGraph (fault : GraphFault)
  /-- The named type cannot be laid out as asked. -/
  | invalidType (name : String) (fault : LayoutFault)
  deriving DecidableEq, Repr

/-- Digits of a number in lower-case hexadecimal behind the mark `0x`. -/
def hexText (value : Nat) : String := "0x" ++ String.ofList (Nat.toDigits 16 value)

/-- The sentence that reports an error. -/
def GraphError.message : GraphError → String
  | unknownSpace name => "unknown address space '" ++ name ++ "'"
  | unknownVarnode name => "unknown varnode '" ++ name ++ "'"
  | unknownType expr => "unknown data-type '" ++ expr ++ "'"
  | slotOutOfRange slot address inputs =>
    "slot " ++ toString slot ++ " is out of range for op at " ++ hexText address ++ " with "
      ++ toString inputs ++ " inputs"
  | duplicateOutput varnode => "varnode '" ++ varnode ++ "' already has a defining op"
  | invalidGraph fault => "invalid graph: " ++ fault.message
  | invalidType name fault => "invalid data-type definition '" ++ name ++ "': " ++ fault.message

/-- What a call that may fail answers: a value or an error, and in either case the state that it
leaves behind. -/
abbrev Answer (σ α : Type) := EStateM.Result GraphError σ α

namespace Answer

variable {σ τ α : Type}

instance decEq [DecidableEq σ] [DecidableEq α] : DecidableEq (Answer σ α)
  | .ok x s, .ok y u => decidable_of_iff' (x = y ∧ s = u) (by rw [EStateM.Result.ok.injEq])
  | .error e s, .error f u => decidable_of_iff' (e = f ∧ s = u) (by rw [EStateM.Result.error.injEq])
  | .ok _ _, .error _ _ => .isFalse fun h => by cases h
  | .error _ _, .ok _ _ => .isFalse fun h => by cases h

/-- The state that a call leaves behind. -/
def state : Answer σ α → σ
  | .ok _ s => s
  | .error _ s => s

/-- The answer with another state, which depends on the one left behind. -/
def mapState (f : σ → τ) : Answer σ α → Answer τ α
  | .ok x s => .ok x (f s)
  | .error e s => .error e (f s)

/-- The state that a call leaves behind, if it succeeds. -/
def success : Answer σ α → Except GraphError σ
  | .ok _ s => .ok s
  | .error e _ => .error e

end Answer

end TypeRecovery
