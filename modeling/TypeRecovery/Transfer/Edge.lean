import TypeRecovery.Transfer.Local

/-!
# Transfer of types along edges

An edge leads from one slot of an op to another. A type at its source implies a type at its
destination, depending on the opcode and the two slots. Where an edge cannot carry a type no new
type is interned.
-/

namespace TypeRecovery

/-- A type on its way from one slot of an op to another. -/
structure Edge where
  /-- The op. -/
  op : Op
  /-- The type at the source. -/
  type : TypeId
  /-- The value at the source. -/
  source : VarnodeId
  /-- The value at the destination. -/
  dest : VarnodeId
  /-- The slot of the source. -/
  inSlot : Slot
  /-- The slot of the destination. -/
  outSlot : Slot
  deriving DecidableEq, Repr

namespace Edge

/-- Whether the edge leads from an operand to an operand. -/
def betweenInputs (e : Edge) : Bool := e.inSlot.isInput && e.outSlot.isInput

/-- Whether an end of the edge is a given operand. -/
def touchesInput (e : Edge) (index : Nat) : Bool :=
  e.inSlot = .input index || e.outSlot = .input index

end Edge

namespace Transfer

/-- A pointer to an unknown byte of ordinary data, as wide as another type. -/
def bytePointer (g : Graph) (types : TypeTable) (like : TypeId) : Interned :=
  let byte := types.unknown 1
  byte.table.pointerSized (types.size like) byte.id g.spaces.dataWordSize

/-- The type itself; through the base register of the frame only a pointer to bytes passes. -/
def passThrough (g : Graph) (types : TypeTable) (e : Edge) : Interned :=
  if (g.varnode e.source).spaceBase then bytePointer g types e.type else ⟨e.type, types⟩

/-- A copied value keeps its type, in both directions. -/
def copy (g : Graph) (types : TypeTable) (e : Edge) : Option Interned :=
  if e.betweenInputs then none else some (passThrough g types e)

/-- An indirect effect modifies the value at operand 0; operand 1 names the op that causes it. -/
def indirect (g : Graph) (types : TypeTable) (e : Edge) : Option Interned :=
  if e.op.creation || e.touchesInput 1 then none else copy g types e

/-- Both sides of an equality or unsigned comparison have one type. -/
def comparison (g : Graph) (types : TypeTable) (e : Edge) : Option Interned :=
  if e.betweenInputs then some (passThrough g types e) else none

/-- Both sides of a signed comparison are signed integers. -/
def signedComparison (types : TypeTable) (e : Edge) : Option Interned :=
  if e.betweenInputs ∧ types.metatype e.type = .int then some ⟨e.type, types⟩ else none

/-- Bytes per unit of the space that a load or store accesses; operand 0 names the space. -/
def accessedWordSize (g : Graph) (op : Op) : Nat :=
  match g.constant? op 0 with
  | some c => ((g.spaces.get? c.address.offset.toNat).map (·.wordSize)).getD 1
  | none => 1

/-- The pointer through which a value is accessed, as wide as the temporary type of the address. -/
def toPointer (g : Graph) (s : TypeState) (e : Edge) : Interned :=
  s.types.pointerNoDepth (s.types.size (s.temporary e.dest)) e.type (accessedWordSize g e.op)

/-- The value accessed through a pointer, if it is as wide as the temporary type of the value. -/
def fromPointer (s : TypeState) (e : Edge) : TypeId :=
  match s.types.pointee? e.type with
  | some pointee =>
    if s.types.size pointee = s.types.size (s.temporary e.dest) then pointee
    else s.temporary e.dest
  | none => s.temporary e.dest

/-- A load relates the loaded value and the address. -/
def load (g : Graph) (s : TypeState) (e : Edge) : Option Interned :=
  if e.touchesInput 0 || (g.varnode e.source).spaceBase then none
  else if e.inSlot = .output then some (toPointer g s e)
  else some ⟨fromPointer s e, s.types⟩

/-- A store relates the stored value at operand 2 and the address at operand 1. -/
def store (g : Graph) (s : TypeState) (e : Edge) : Option Interned :=
  if e.touchesInput 0 || (g.varnode e.source).spaceBase then none
  else if e.inSlot = .input 2 ∧ e.outSlot = .input 1 then some (toPointer g s e)
  else if e.inSlot = .input 1 ∧ e.outSlot = .input 2 then some ⟨fromPointer s e, s.types⟩
  else none

/-- What an addition does to the pointer at one of its operands. -/
inductive Addend where
  /-- It adds a known number of units. -/
  | offset (units : UInt64)
  /-- It adds a multiple of the size of the pointee. -/
  | index
  /-- It does not look like pointer arithmetic. -/
  | other
  deriving DecidableEq, Repr

/-- Whether a scale is a multiple of the size of the pointee; without a size every scale is. -/
def isScaleOf (pointeeSize : Nat) (scale : UInt64) : Bool :=
  pointeeSize = 0 || scale.toNat % pointeeSize = 0

/-- The addend of pointer arithmetic with an explicit scale: operand 1 times operand 2. -/
def scaledAddend (g : Graph) (op : Op) (pointeeSize : Nat) : Addend :=
  match g.constant? op 2 with
  | none => .other
  | some scale =>
    match g.constant? op 1 with
    | some count =>
      .offset (count.address.offset * scale.address.offset &&& byteMask count.size)
    | none => if isScaleOf pointeeSize scale.address.offset then .index else .other

/-- The addend that is computed by the op that writes a value. A product is an index unless its
scale is -1, which makes a difference of pointers, or no multiple of the size of the pointee. -/
def computedAddend (g : Graph) (v : VarnodeId) (pointeeSize : Nat) : Addend :=
  match (g.varnode v).definition with
  | some o =>
    if (g.op o).opcode = .intMult then
      match g.constant? (g.op o) 1 with
      | some scale =>
        if scale.address.offset = byteMask scale.size then .other
        else if isScaleOf pointeeSize scale.address.offset then .index
        else .other
      | none => .index
    else if pointeeSize = 1 then .index
    else .other
  | none => if pointeeSize = 1 then .index else .other

/-- The addend of an integer addition, which is its other operand. -/
def plainAddend (g : Graph) (s : TypeState) (op : Op) (slot pointeeSize : Nat) : Addend :=
  match op.input? (if slot = 0 then 1 else 0) with
  | none => .other
  | some v =>
    if (g.varnode v).constant then
      if s.types.metatype (s.temporary v) = .ptr then .other
      else .offset (g.varnode v).address.offset
    else computedAddend g v pointeeSize

/-- What an op adds to the pointer at an operand that points to `pointeeSize` bytes. -/
def addend (g : Graph) (s : TypeState) (op : Op) (slot pointeeSize : Nat) : Addend :=
  match op.opcode with
  | .ptrAdd => if slot = 0 then scaledAddend g op pointeeSize else .other
  | .ptrSub =>
    if slot = 0 then ((g.constant? op 1).map fun c => Addend.offset c.address.offset).getD .other
    else .other
  | .intAdd => plainAddend g s op slot pointeeSize
  | _ => .other

/-- The pointer that results from adding `units` to the pointer of the edge: the component at that
place, the pointer itself if nothing is added, or else the temporary type of the result. -/
def advance (g : Graph) (s : TypeState) (e : Edge) (result : TypeId) (units : UInt64) : Interned :=
  let bytes := (units * UInt64.ofNat (s.types.wordSize e.type)).toNat
  let landing := s.types.descend (e.op.opcode ≠ .ptrSub) e.type bytes
  match landing.pointer with
  | none => ⟨if units = 0 then e.type else result, landing.table⟩
  | some ptr =>
    if (g.varnode e.source).spaceBase ∧ landing.table.isSpacebasePointer ptr then
      let byte := landing.table.unknown 1
      byte.table.pointerSized (landing.table.size ptr) byte.id (landing.table.wordSize ptr)
    else ⟨ptr, landing.table⟩

/-- The type of a sum, of which the operand at a position has the type of the edge. -/
def sum (g : Graph) (s : TypeState) (e : Edge) (slot : Nat) : Interned :=
  let result := (e.op.output.map s.temporary).getD e.type
  match s.types.pointee? e.type with
  | none => ⟨result, s.types⟩
  | some pointee =>
    match addend g s e.op slot (s.types.size pointee) with
    | .other => ⟨result, s.types⟩
    | .index => ⟨e.type, s.types⟩
    | .offset units => advance g s e result units

/-- Pointers flow from operands into a sum, and not back. -/
def sumEdge (g : Graph) (s : TypeState) (e : Edge) : Interned :=
  match e.inSlot with
  | .output => ⟨s.temporary e.dest, s.types⟩
  | .input slot => sum g s e slot

/-- Integer addition: pointers flow into the sum, and integers only into a constant operand 1. -/
def intAdd (g : Graph) (s : TypeState) (e : Edge) : Option Interned :=
  let metatype := s.types.metatype e.type
  if metatype = .ptr then
    if e.betweenInputs then none else some (sumEdge g s e)
  else if metatype = .int ∨ metatype = .uint then
    if e.outSlot = .input 1 ∧ (g.constant? e.op 1).isSome then some ⟨e.type, s.types⟩ else none
  else none

/-- Pointer arithmetic: only pointers flow, and only between the base and the result. -/
def ptrSub (g : Graph) (s : TypeState) (e : Edge) : Option Interned :=
  if e.betweenInputs ∨ s.types.metatype e.type ≠ .ptr then none else some (sumEdge g s e)

/-- Pointer arithmetic with an explicit scale at operand 2, which carries no type. -/
def ptrAdd (g : Graph) (s : TypeState) (e : Edge) : Option Interned :=
  if e.touchesInput 2 then none else ptrSub g s e

/-- The byte of the truncated value at which the result of a truncation starts in memory. -/
def truncationOffset? (g : Graph) (e : Edge) : Option Nat :=
  match g.constant? e.op 1 with
  | none => none
  | some c =>
    let dropped := c.address.offset.toNat
    let input := g.varnode e.source
    let output := g.varnode e.dest
    if UInt32.size ≤ dropped then none
    else if (g.spaces.get input.address.space).bigEndian then
      if output.size + dropped ≤ input.size then some (input.size - output.size - dropped)
      else none
    else some dropped

/-- A truncation of a structure or array has the type of the component it extracts. -/
def subpiece (g : Graph) (s : TypeState) (e : Edge) : Option Interned :=
  let metatype := s.types.metatype e.type
  if e.inSlot = .input 0 ∧ e.outSlot = .output ∧ (metatype = .struct ∨ metatype = .array) then
    match truncationOffset? g e with
    | none => none
    | some offset =>
      (s.types.exactPiece e.type offset (g.varnode e.dest).size).map fun piece => ⟨piece, s.types⟩
  else none

/-- The type that an edge carries to its destination. -/
def transfer (g : Graph) (s : TypeState) (e : Edge) : Option Interned :=
  match e.op.opcode with
  | .copy | .multiEqual => copy g s.types e
  | .indirect => indirect g s.types e
  | .intEqual | .intNotEqual | .intLess | .intLessEqual => comparison g s.types e
  | .intSless | .intSlessEqual => signedComparison s.types e
  | .load => load g s e
  | .store => store g s e
  | .intAdd => intAdd g s e
  | .ptrAdd => ptrAdd g s e
  | .ptrSub => ptrSub g s e
  | .subpiece => subpiece g s e
  | _ => none

end Transfer

end TypeRecovery
