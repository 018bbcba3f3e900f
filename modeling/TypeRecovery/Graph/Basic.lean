import TypeRecovery.DataType.Basic
import TypeRecovery.Opcode

/-!
# Function graphs

A function is a graph of values in single assignment form: varnodes, which are written by at most
one op and read by any number of them, and ops. The graph also holds what is known of the function
from outside: its symbols, recommended types, prototype and heritage. Data types of values are not
part of the graph.
-/

namespace TypeRecovery

/-- The position of a varnode in its graph. -/
abbrev VarnodeId := Nat

/-- The position of an op in its graph. -/
abbrev OpId := Nat

/-- The position of a symbol in its scope. -/
abbrev SymbolId := Nat

/-- The position of a symbol entry in its scope. -/
abbrev EntryId := Nat

/-- One end of an edge through an op. -/
inductive Slot where
  /-- The result. -/
  | output
  /-- The operand at a position. -/
  | input (index : Nat)
  deriving DecidableEq, Repr, Inhabited

/-- Whether a slot holds an operand. -/
def Slot.isInput : Slot → Bool
  | input _ => true
  | output => false

/-- How an op that leaves the function does so. -/
inductive HaltKind where
  /-- An ordinary return. -/
  | normal
  | halt
  | badInstruction
  | unimplemented
  | noReturn
  | missingReturn
  deriving DecidableEq, Repr, Inhabited

namespace HaltKind

/-- Every way to leave a function. -/
def all : List HaltKind := [normal, halt, badInstruction, unimplemented, noReturn, missingReturn]

/-- The word for a way to leave a function. -/
def name : HaltKind → String
  | normal => "normal"
  | halt => "halt"
  | badInstruction => "bad_instruction"
  | unimplemented => "unimplemented"
  | noReturn => "no_return"
  | missingReturn => "missing_return"

/-- The way to leave a function that a word names. -/
def ofName? (name : String) : Option HaltKind := all.find? (·.name = name)

end HaltKind

/-- An operation. -/
structure Op where
  /-- What it computes. -/
  opcode : Opcode
  /-- Where the instruction is. -/
  address : Address
  /-- Operands in order. -/
  inputs : List VarnodeId
  /-- Result, if there is one. -/
  output : Option VarnodeId
  /-- Whether the op is unreachable. -/
  dead : Bool := false
  /-- How it leaves the function, if it does. -/
  halt : HaltKind := .normal
  /-- Whether the type of the result must not be inferred from how it is read. -/
  stopsPropagation : Bool := false
  /-- Whether an indirect effect creates its value rather than modifies one. -/
  creation : Bool := false
  deriving DecidableEq, Repr, Inhabited

namespace Op

/-- The operand at a position. -/
def input? (op : Op) (index : Nat) : Option VarnodeId := op.inputs[index]?

/-- The varnode at a slot. -/
def at? (op : Op) : Slot → Option VarnodeId
  | .output => op.output
  | .input index => op.input? index

/-- The first position at which a varnode is an operand. -/
def slotOf? (op : Op) (v : VarnodeId) : Option Nat := op.inputs.findIdx? (· = v)

end Op

/-- A value. -/
structure Varnode where
  /-- Where the value is stored. -/
  address : Address
  /-- Its size in bytes. -/
  size : Nat
  /-- Whether the value is its own offset. -/
  constant : Bool := false
  /-- Whether the value exists on entry to the function. -/
  input : Bool := false
  /-- Whether the value is tied to its address. -/
  addrTied : Bool := false
  /-- Whether the value only annotates an op. -/
  annotation : Bool := false
  /-- Whether the value is the base register of the frame. -/
  spaceBase : Bool := false
  /-- The bits that may be non-zero. -/
  mask : UInt64
  /-- The op that writes the value. -/
  definition : Option OpId := none
  /-- The ops that read the value, each once. -/
  readers : List OpId := []
  /-- The symbol entry the value is bound to. -/
  entry : Option EntryId := none
  deriving DecidableEq, Repr, Inhabited

namespace Varnode

/-- Whether some op writes the value. -/
def isWritten (v : Varnode) : Bool := v.definition.isSome

/-- Whether the value takes part in type recovery. -/
def isObservable (v : Varnode) : Bool := !v.annotation && (v.isWritten || !v.readers.isEmpty)

end Varnode

/-- A named variable. -/
structure Symbol where
  /-- Its name. -/
  name : String
  /-- Its type. -/
  type : TypeId
  /-- Whether the type was given from outside. -/
  typeLocked : Bool
  deriving DecidableEq, Repr, Inhabited

/-- A storage range that holds part of a symbol. -/
structure SymbolEntry where
  /-- The symbol. -/
  symbol : SymbolId
  /-- Where the range starts. -/
  address : Address
  /-- Its size in bytes. -/
  size : Nat
  /-- The byte of the symbol at which the range starts. -/
  offset : Nat
  deriving DecidableEq, Repr, Inhabited

/-- A type suggested for an input at an address. -/
structure Recommendation where
  /-- Where the input is. -/
  address : Address
  /-- The suggested type. -/
  type : TypeId
  deriving DecidableEq, Repr, Inhabited

/-- What the prototype says about the returned value. -/
structure Prototype where
  /-- Whether the returned type is fixed. -/
  outputLocked : Bool := false
  /-- The returned type. -/
  outputType : Option TypeId := none
  deriving DecidableEq, Repr, Inhabited

/-- The place of a varnode in the location order. -/
structure Location where
  /-- The space of the value. -/
  space : SpaceId
  /-- The offset of the value. -/
  offset : UInt64
  /-- The size of the value. -/
  size : Nat
  /-- The varnode. -/
  id : VarnodeId
  deriving DecidableEq, Repr, Inhabited

/-- Location order: by space, then offset, then size, then age. -/
def Location.compare (a b : Location) : Ordering :=
  (Ord.compare a.space b.space).then <| (Ord.compare a.offset.toNat b.offset.toNat).then <|
    (Ord.compare a.size b.size).then (Ord.compare a.id b.id)

/-- Insert a location into a list in location order. -/
def Location.insert (x : Location) : List Location → List Location
  | [] => [x]
  | y :: rest => if x.compare y = .lt then x :: y :: rest else y :: Location.insert x rest

/-- The key under which the location of a varnode is filed. Sizes and ages are 32-bit words. -/
structure LocationKey where
  /-- The space of the value. -/
  space : SpaceId
  /-- The offset of the value. -/
  offset : UInt64
  /-- The size of the value. -/
  size : UInt32
  /-- The varnode. -/
  id : UInt32
  deriving DecidableEq, Repr, Inhabited

namespace LocationKey

/-- Keys are compared from left to right. -/
def compare (a b : LocationKey) : Ordering :=
  (Ord.compare a.space b.space).then <| (Ord.compare a.offset.toNat b.offset.toNat).then <|
    (Ord.compare a.size.toNat b.size.toNat).then (Ord.compare a.id.toNat b.id.toNat)

/-- The least key with an offset. -/
def least (space : SpaceId) (offset : UInt64) : LocationKey := ⟨space, offset, 0, 0⟩

/-- The greatest key of a space. -/
def greatest (space : SpaceId) : LocationKey :=
  ⟨space, 0xffffffffffffffff, 0xffffffff, 0xffffffff⟩

end LocationKey

/-- The upper end of a range of keys. -/
inductive UpperBound where
  /-- The range goes up to the key and includes it. -/
  | included (key : LocationKey)
  /-- The range stops before the key. -/
  | excluded (key : LocationKey)
  deriving DecidableEq, Repr

/-- The key at the upper end. -/
def UpperBound.key : UpperBound → LocationKey
  | included key => key
  | excluded key => key

/-- Whether a key is below the upper end of a range. -/
def UpperBound.admits : UpperBound → LocationKey → Bool
  | included last, key => (key.compare last).isLE
  | excluded stop, key => key.compare stop = .lt

/-- The key of a location. -/
def Location.key (l : Location) : LocationKey :=
  ⟨l.space, l.offset, UInt32.ofNat l.size, UInt32.ofNat l.id⟩

/-- A function graph. -/
structure Graph where
  /-- Name of the function. -/
  name : String
  /-- Its address spaces. -/
  spaces : SpaceTable
  /-- The space of its frame. -/
  stack : SpaceId
  /-- Its values in the order of their creation. -/
  varnodes : Array Varnode := #[]
  /-- Its ops in the order of their creation. -/
  ops : Array Op := #[]
  /-- One location for each value, in location order. -/
  locations : List Location := []
  /-- Its symbols. -/
  symbols : Array Symbol := #[]
  /-- The storage of its symbols. -/
  entries : Array SymbolEntry := #[]
  /-- Types suggested for its inputs. -/
  recommendations : List Recommendation := []
  /-- Its prototype. -/
  prototype : Prototype := {}
  /-- Completed heritage passes of spaces, the latest report of a space first. -/
  heritage : List (SpaceId × Nat) := []
  /-- The input that holds the base address of the frame. -/
  spaceBase : Option VarnodeId := none
  deriving DecidableEq, Repr, Inhabited

namespace Graph

/-- The varnode at a position; an empty one stands in for a missing one. -/
def varnode (g : Graph) (v : VarnodeId) : Varnode := (g.varnodes[v]?).getD default

/-- The op at a position; an empty one stands in for a missing one. -/
def op (g : Graph) (o : OpId) : Op := (g.ops[o]?).getD default

/-- Whether there is a varnode at a position. -/
def hasVarnode (g : Graph) (v : VarnodeId) : Bool := v < g.varnodes.size

/-- The value of an operand that is a constant. -/
def constant? (g : Graph) (op : Op) (index : Nat) : Option Varnode :=
  match op.input? index with
  | some v => if (g.varnode v).constant then some (g.varnode v) else none
  | none => none

/-- The frame's address space. -/
def stackSpace (g : Graph) : Space := g.spaces.get g.stack

/-- Completed heritage passes of a space. -/
def heritagePasses (g : Graph) (space : SpaceId) : Nat := (g.heritage.lookup space).getD 0

/-- Record the number of completed heritage passes of a space. -/
def setHeritage (g : Graph) (space : SpaceId) (passes : Nat) : Graph :=
  { g with heritage := (space, passes) :: g.heritage }

/-- Change a varnode. -/
def modifyVarnode (g : Graph) (v : VarnodeId) (f : Varnode → Varnode) : Graph :=
  { g with varnodes := g.varnodes.modify v f }

/-- Change an op. -/
def modifyOp (g : Graph) (o : OpId) (f : Op → Op) : Graph :=
  { g with ops := g.ops.modify o f }

/-- Add a value at the end of the graph, and its location. -/
def addVarnode (g : Graph) (v : Varnode) : Graph :=
  { g with
    varnodes := g.varnodes.push v
    locations := Location.insert ⟨v.address.space, v.address.offset, v.size, g.varnodes.size⟩
      g.locations }

/-- List an op as reader of a value, once. -/
def addReader (g : Graph) (o : OpId) (v : VarnodeId) : Graph :=
  g.modifyVarnode v fun node =>
    if o ∈ node.readers then node else { node with readers := node.readers ++ [o] }

/-- The label of a varnode without a name. -/
def anonymousLabel (v : VarnodeId) : String := "#" ++ toString v

/-- Whether an op may write a value: it is neither written already nor a constant nor an input. -/
def isFree (g : Graph) (v : VarnodeId) : Bool :=
  !((g.varnode v).isWritten || (g.varnode v).constant || (g.varnode v).input)

/-- Note an op as the one that writes a value. -/
def setDefinition (g : Graph) (o : OpId) (v : VarnodeId) : Graph :=
  g.modifyVarnode v fun node => { node with definition := some o }

/-- Append an op, and note it in the values it reads and writes. -/
def linkOp (g : Graph) (op : Op) : Graph :=
  let o := g.ops.size
  let read := op.inputs.foldl (fun g v => g.addReader o v) g
  let written := op.output.elim read fun out => read.setDefinition o out
  { written with ops := written.ops.push op }

/-- Add an op at the end of the graph. Its operands and result have to exist, and the result has
to be free. -/
def addOp (g : Graph) (op : Op) : Answer Graph OpId :=
  match (op.inputs ++ op.output.toList).find? fun v => !g.hasVarnode v with
  | some v => .error (.unknownVarnode (anonymousLabel v)) g
  | none =>
    match op.output.filter fun out => !g.isFree out with
    | some out => .error (.duplicateOutput (anonymousLabel out)) g
    | none => .ok g.ops.size (g.linkOp op)

/-- All values in location order. -/
def byLocation (g : Graph) : List VarnodeId := g.locations.map (·.id)

/-- The values that take part in type recovery, in location order. -/
def observables (g : Graph) : List VarnodeId :=
  g.byLocation.filter fun v => (g.varnode v).isObservable

/-- The values with keys from `lower` on and below `upper`, in location order. -/
def valuesBetween (g : Graph) (lower : LocationKey) (upper : UpperBound) : List VarnodeId :=
  (g.locations.filter fun l => (lower.compare l.key).isLE && upper.admits l.key).map (·.id)

/-- The values of a space with offsets from `start` up to, and not including, `stop`, in location
order. Without `stop` the range goes up to the greatest key of the space, and a range that stops
where it starts or before is not looked up at all. -/
def valuesInRange (g : Graph) (space : SpaceId) (start : UInt64) (stop : Option UInt64) :
    List VarnodeId :=
  match stop with
  | some stop =>
    if stop ≤ start then []
    else g.valuesBetween (.least space start) (.excluded (.least space stop))
  | none => g.valuesBetween (.least space start) (.included (.greatest space))

/-- The first input in location order with an address and size, among the values that start there.
-/
def findInput? (g : Graph) (size : Nat) (address : Address) : Option VarnodeId :=
  (g.valuesInRange address.space address.offset (successor? address.offset)).find? fun v =>
    (g.varnode v).input && (g.varnode v).size = size

/-- The ops that return from the function, in order. -/
def returnOps (g : Graph) : List OpId :=
  (List.range g.ops.size).filter fun o => (g.op o).opcode = .ret

/-- Restrict the mask of a value to its size and install it. -/
def setMask (g : Graph) (v : VarnodeId) (mask : UInt64) : Graph :=
  g.modifyVarnode v fun node => { node with mask := mask &&& byteMask node.size }

/-- Designate the input that holds the base address of the frame. -/
def setSpaceBase (g : Graph) (v : VarnodeId) : Graph :=
  { g.modifyVarnode v fun node => { node with spaceBase := true, input := true } with
    spaceBase := some v }

/-- Add a symbol at the end of the scope. -/
def addSymbol (g : Graph) (s : Symbol) : Graph := { g with symbols := g.symbols.push s }

/-- The first symbol with a name. -/
def findSymbol? (g : Graph) (name : String) : Option SymbolId :=
  g.symbols.findIdx? (·.name = name)

/-- Change the type of a symbol. -/
def setSymbolType (g : Graph) (id : SymbolId) (type : TypeId) : Graph :=
  { g with symbols := g.symbols.modify id fun symbol => { symbol with type } }

/-- Bind a value to a storage range of a symbol, which is added at the end of the scope. -/
def bindSymbol (g : Graph) (v : VarnodeId) (entry : SymbolEntry) : Graph :=
  { g.modifyVarnode v fun node => { node with entry := some g.entries.size } with
    entries := g.entries.push entry }

/-- Suggest a type for the inputs at an address. -/
def addRecommendation (g : Graph) (r : Recommendation) : Graph :=
  { g with recommendations := g.recommendations ++ [r] }

end Graph

end TypeRecovery
