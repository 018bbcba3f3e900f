import TypeRecovery.Proofs.Checked.Local

/-!
# Checked runs of transfers

The types that edges carry, with every value, op, space and type that is read checked to exist,
every divisor checked not to be zero and every difference checked not to be negative.
-/

namespace TypeRecovery

namespace Checked

open Transfer (Addend)

variable {g : Graph} {s : TypeState} {v : Nat}

/-! ## The runs -/

/-- A pointer to an unknown byte of ordinary data, as wide as another type. -/
def bytePointer (g : Graph) (types : TypeTable) (like : TypeId) : Checked Interned := do
  let byte := types.unknown 1
  pointerSized byte.table (← size types like) byte.id (← dataWordSize g.spaces)

/-- The type itself; through the base register of the frame only a pointer to bytes passes. -/
def passThrough (g : Graph) (types : TypeTable) (e : Edge) : Checked Interned := do
  if (← varnode g e.source).spaceBase then bytePointer g types e.type else return ⟨e.type, types⟩

/-- A copied value keeps its type, in both directions. -/
def copy (g : Graph) (types : TypeTable) (e : Edge) : Checked (Option Interned) := do
  if e.betweenInputs then return none else return some (← passThrough g types e)

/-- An indirect effect modifies the value at operand 0. -/
def indirect (g : Graph) (types : TypeTable) (e : Edge) : Checked (Option Interned) := do
  if e.op.creation || e.touchesInput 1 then return none else copy g types e

/-- Both sides of an equality or unsigned comparison have one type. -/
def comparison (g : Graph) (types : TypeTable) (e : Edge) : Checked (Option Interned) := do
  if e.betweenInputs then return some (← passThrough g types e) else return none

/-- Both sides of a signed comparison are signed integers. -/
def signedComparison (types : TypeTable) (e : Edge) : Checked (Option Interned) := do
  let metatype ← metatype types e.type
  if e.betweenInputs ∧ metatype = .int then return some ⟨e.type, types⟩ else return none

/-- Bytes per unit of the space that a load or store accesses. -/
def accessedWordSize (g : Graph) (op : Op) : Checked Nat := do
  match ← constant? g op 0 with
  | some c => return ((g.spaces.get? c.address.offset.toNat).map (·.wordSize)).getD 1
  | none => return 1

/-- The pointer through which a value is accessed. -/
def toPointer (g : Graph) (s : TypeState) (e : Edge) : Checked Interned := do
  let current ← temporary s e.dest
  pointerNoDepth s.types (← size s.types current) e.type (← accessedWordSize g e.op)

/-- The value accessed through a pointer. -/
def fromPointer (s : TypeState) (e : Edge) : Checked TypeId := do
  let current ← temporary s e.dest
  match ← pointee? s.types e.type with
  | some pointee =>
    if (← size s.types pointee) = (← size s.types current) then return pointee
    else return current
  | none => return current

/-- A load relates the loaded value and the address. -/
def load (g : Graph) (s : TypeState) (e : Edge) : Checked (Option Interned) := do
  let source ← varnode g e.source
  if e.touchesInput 0 || source.spaceBase then return none
  else if e.inSlot = .output then return some (← toPointer g s e)
  else return some ⟨← fromPointer s e, s.types⟩

/-- A store relates the stored value at operand 2 and the address at operand 1. -/
def store (g : Graph) (s : TypeState) (e : Edge) : Checked (Option Interned) := do
  let source ← varnode g e.source
  if e.touchesInput 0 || source.spaceBase then return none
  else if e.inSlot = .input 2 ∧ e.outSlot = .input 1 then return some (← toPointer g s e)
  else if e.inSlot = .input 1 ∧ e.outSlot = .input 2 then
    return some ⟨← fromPointer s e, s.types⟩
  else return none

/-- Whether a scale is a multiple of the size of the pointee; without a size every scale is. -/
def isScaleOf (pointeeSize : Nat) (scale : UInt64) : Checked Bool := do
  if pointeeSize = 0 then return true else return (← mod scale.toNat pointeeSize) = 0

/-- The addend of pointer arithmetic with an explicit scale. -/
def scaledAddend (g : Graph) (op : Op) (pointeeSize : Nat) : Checked Addend := do
  match ← constant? g op 2 with
  | none => return .other
  | some scale =>
    match ← constant? g op 1 with
    | some count =>
      return .offset (count.address.offset * scale.address.offset &&& byteMask count.size)
    | none => if ← isScaleOf pointeeSize scale.address.offset then return .index else return .other

/-- The addend that is computed by the op that writes a value. -/
def computedAddend (g : Graph) (v : VarnodeId) (pointeeSize : Nat) : Checked Addend := do
  match (← varnode g v).definition with
  | some o =>
    let op ← op g o
    if op.opcode = .intMult then
      match ← constant? g op 1 with
      | some scale =>
        if scale.address.offset = byteMask scale.size then return .other
        else if ← isScaleOf pointeeSize scale.address.offset then return .index
        else return .other
      | none => return .index
    else if pointeeSize = 1 then return .index
    else return .other
  | none => if pointeeSize = 1 then return .index else return .other

/-- The addend of an integer addition, which is its other operand. -/
def plainAddend (g : Graph) (s : TypeState) (op : Op) (slot pointeeSize : Nat) :
    Checked Addend := do
  match op.input? (if slot = 0 then 1 else 0) with
  | none => return .other
  | some v =>
    let node ← varnode g v
    if node.constant then
      if (← metatype s.types (← temporary s v)) = .ptr then return .other
      else return .offset node.address.offset
    else computedAddend g v pointeeSize

/-- What an op adds to the pointer at an operand that points to `pointeeSize` bytes. -/
def addend (g : Graph) (s : TypeState) (op : Op) (slot pointeeSize : Nat) : Checked Addend := do
  match op.opcode with
  | .ptrAdd => if slot = 0 then scaledAddend g op pointeeSize else return .other
  | .ptrSub =>
    if slot = 0 then
      return ((← constant? g op 1).map fun c => Addend.offset c.address.offset).getD .other
    else return .other
  | .intAdd => plainAddend g s op slot pointeeSize
  | _ => return .other

/-- The pointer that results from adding `units` to the pointer of the edge. -/
def advance (g : Graph) (s : TypeState) (e : Edge) (result : TypeId) (units : UInt64) :
    Checked Interned := do
  let bytes := (units * UInt64.ofNat (← wordSize s.types e.type)).toNat
  let landing ← descend s.types (e.op.opcode ≠ .ptrSub) e.type bytes
  match landing.pointer with
  | none => return ⟨if units = 0 then e.type else result, landing.table⟩
  | some ptr =>
    let source ← varnode g e.source
    if source.spaceBase ∧ (← isSpacebasePointer landing.table ptr) then
      let byte := landing.table.unknown 1
      pointerSized byte.table (← size landing.table ptr) byte.id (← wordSize landing.table ptr)
    else return ⟨ptr, landing.table⟩

/-- The temporary type of the result of an op; the type of the edge if there is no result. -/
def resultType (s : TypeState) (e : Edge) : Checked TypeId := do
  match e.op.output with
  | some out => temporary s out
  | none => return e.type

/-- The type of a sum, of which the operand at a position has the type of the edge. -/
def sum (g : Graph) (s : TypeState) (e : Edge) (slot : Nat) : Checked Interned := do
  let result ← resultType s e
  match ← pointee? s.types e.type with
  | none => return ⟨result, s.types⟩
  | some pointee =>
    match ← addend g s e.op slot (← size s.types pointee) with
    | .other => return ⟨result, s.types⟩
    | .index => return ⟨e.type, s.types⟩
    | .offset units => advance g s e result units

/-- Pointers flow from operands into a sum, and not back. -/
def sumEdge (g : Graph) (s : TypeState) (e : Edge) : Checked Interned := do
  match e.inSlot with
  | .output => return ⟨← temporary s e.dest, s.types⟩
  | .input slot => sum g s e slot

/-- Integer addition: pointers flow into the sum, and integers only into a constant operand 1. -/
def intAdd (g : Graph) (s : TypeState) (e : Edge) : Checked (Option Interned) := do
  let metatype ← metatype s.types e.type
  if metatype = .ptr then
    if e.betweenInputs then return none else return some (← sumEdge g s e)
  else if metatype = .int ∨ metatype = .uint then
    let constant ← constant? g e.op 1
    if e.outSlot = .input 1 ∧ constant.isSome then return some ⟨e.type, s.types⟩ else return none
  else return none

/-- Pointer arithmetic: only pointers flow, and only between the base and the result. -/
def ptrSub (g : Graph) (s : TypeState) (e : Edge) : Checked (Option Interned) := do
  let metatype ← metatype s.types e.type
  if e.betweenInputs ∨ metatype ≠ .ptr then return none else return some (← sumEdge g s e)

/-- Pointer arithmetic with an explicit scale at operand 2, which carries no type. -/
def ptrAdd (g : Graph) (s : TypeState) (e : Edge) : Checked (Option Interned) := do
  if e.touchesInput 2 then return none else ptrSub g s e

/-- The byte of the truncated value at which the result of a truncation starts in memory. -/
def truncationOffset? (g : Graph) (e : Edge) : Checked (Option Nat) := do
  match ← constant? g e.op 1 with
  | none => return none
  | some c =>
    let dropped := c.address.offset.toNat
    let input ← varnode g e.source
    let output ← varnode g e.dest
    let space ← space g.spaces input.address.space
    if UInt32.size ≤ dropped then return none
    else if space.bigEndian then
      if output.size + dropped ≤ input.size then
        return some (← sub (← sub input.size output.size) dropped)
      else return none
    else return some dropped

/-- A truncation of a structure or array has the type of the component it extracts. -/
def subpiece (g : Graph) (s : TypeState) (e : Edge) : Checked (Option Interned) := do
  let metatype ← metatype s.types e.type
  if e.inSlot = .input 0 ∧ e.outSlot = .output ∧ (metatype = .struct ∨ metatype = .array) then
    match ← truncationOffset? g e with
    | none => return none
    | some offset =>
      let output ← varnode g e.dest
      return (← exactPiece s.types e.type offset output.size).map fun piece => ⟨piece, s.types⟩
  else return none

/-- The type that an edge carries to its destination. -/
def transfer (g : Graph) (s : TypeState) (e : Edge) : Checked (Option Interned) :=
  match e.op.opcode with
  | .copy | .multiEqual => copy g s.types e
  | .indirect => indirect g s.types e
  | .intEqual | .intNotEqual | .intLess | .intLessEqual => comparison g s.types e
  | .intSless | .intSlessEqual => signedComparison s.types e
  | .load => load g s e
  | .store => store g s e
  | .intAdd => intAdd g s e
  | .ptrAdd => ptrAdd g s e
  | .ptrSub => ptrSub g s e
  | .subpiece => subpiece g s e
  | _ => return none

/-! ## Their results -/

/-- The two ends of an edge exist, and so do the values of its op and its type. -/
structure Leads (g : Graph) (s : TypeState) (e : Edge) : Prop where
  /-- The values of the op exist. -/
  wired : g.Wired e.op
  /-- The value at the source exists. -/
  source : e.source < g.varnodes.size
  /-- The value at the destination exists. -/
  dest : e.dest < g.varnodes.size
  /-- The type exists. -/
  type : s.types.Has e.type

/-- A checked run gives what an edge carries, and leaves the table within bounds. -/
def Carries (g : Graph) (run : Checked (Option Interned)) (carried : Option Interned) : Prop :=
  run = .ok carried ∧ ∀ i ∈ carried, i.table.Laid g.spaces.size

private theorem carries_none : Carries g (.ok none) none := ⟨rfl, fun _ hi => by cases hi⟩

private theorem carries_some {i : Interned} (h : i.table.Laid g.spaces.size) :
    Carries g (.ok (some i)) (some i) := by
  refine ⟨rfl, ?_⟩
  rintro _ ⟨⟩
  exact h

section Edges

variable {e : Edge} (hs : Ready g s) (he : Leads g s e)

include hs he

/-- A pointer to unknown bytes is made without a fault. -/
theorem bytePointer_eq :
    bytePointer g s.types e.type = .ok (Transfer.bytePointer g s.types e.type) ∧
      (Transfer.bytePointer g s.types e.type).table.Laid g.spaces.size := by
  have hbyte := s.types.gives_atom 1 .unknown
  have hlaid := hs.laid.atom (by decide : 1 < UInt32.size) .unknown
  rw [bytePointer, size_eq he.type, ok_bind, dataWordSize_eq, ok_bind]
  exact ⟨pointerSized_eq _ _ hbyte.has, hlaid.pointerSized (hs.laid.size_lt _) _ hbyte.has⟩

private theorem passThrough_eq : passThrough g s.types e = .ok (Transfer.passThrough g s.types e) ∧
    (Transfer.passThrough g s.types e).table.Laid g.spaces.size := by
  rw [passThrough, varnode_eq he.source, ok_bind, Transfer.passThrough]
  split
  · exact bytePointer_eq hs he
  · exact ⟨rfl, hs.laid⟩

private theorem copy_carries : Carries g (copy g s.types e) (Transfer.copy g s.types e) := by
  obtain ⟨hok, hlaid⟩ := passThrough_eq hs he
  rw [copy, Transfer.copy]
  split
  · exact carries_none
  · rw [hok, ok_bind]
    exact carries_some hlaid

private theorem indirect_carries :
    Carries g (indirect g s.types e) (Transfer.indirect g s.types e) := by
  rw [indirect, Transfer.indirect]
  split
  · exact carries_none
  · exact copy_carries hs he

private theorem comparison_carries :
    Carries g (comparison g s.types e) (Transfer.comparison g s.types e) := by
  obtain ⟨hok, hlaid⟩ := passThrough_eq hs he
  rw [comparison, Transfer.comparison]
  split
  · rw [hok, ok_bind]
    exact carries_some hlaid
  · exact carries_none

private theorem signedComparison_carries :
    Carries g (signedComparison s.types e) (Transfer.signedComparison s.types e) := by
  rw [signedComparison, metatype_eq he.type, ok_bind, Transfer.signedComparison]
  split
  · exact carries_some hs.laid
  · exact carries_none

omit hs in
private theorem accessedWordSize_eq :
    accessedWordSize g e.op = .ok (Transfer.accessedWordSize g e.op) := by
  rw [accessedWordSize, constant?_eq he.wired, ok_bind, Transfer.accessedWordSize]
  cases g.constant? e.op 0 <;> rfl

private theorem toPointer_eq : toPointer g s e = .ok (Transfer.toPointer g s e) ∧
    (Transfer.toPointer g s e).table.Laid g.spaces.size := by
  have hvalid := hs.valid_of he.dest
  rw [toPointer, temporary_eq hs he.dest, ok_bind, size_eq (hvalid.temporary e.dest), ok_bind,
    accessedWordSize_eq he, ok_bind]
  exact ⟨pointerNoDepth_eq hvalid.types _ _ he.type,
    hs.laid.pointerNoDepth (hs.laid.size_lt _) _ he.type⟩

private theorem fromPointer_eq : fromPointer s e = .ok (Transfer.fromPointer s e) := by
  have hvalid := hs.valid_of he.dest
  rw [fromPointer, temporary_eq hs he.dest, ok_bind, pointee?_eq he.type, ok_bind,
    Transfer.fromPointer]
  cases hp : s.types.pointee? e.type with
  | none => rfl
  | some pointee =>
    dsimp only
    rw [size_eq (hvalid.types.has_pointee he.type hp), ok_bind,
      size_eq (hvalid.temporary e.dest), ok_bind]
    split <;> rfl

/-- Loads carry types without a fault. -/
theorem load_carries : Carries g (load g s e) (Transfer.load g s e) := by
  obtain ⟨hok, hlaid⟩ := toPointer_eq hs he
  rw [load, varnode_eq he.source, ok_bind, Transfer.load]
  split
  · exact carries_none
  · split
    · rw [hok, ok_bind]
      exact carries_some hlaid
    · rw [fromPointer_eq hs he, ok_bind]
      exact carries_some hs.laid

/-- Stores carry types without a fault. -/
theorem store_carries : Carries g (store g s e) (Transfer.store g s e) := by
  obtain ⟨hok, hlaid⟩ := toPointer_eq hs he
  rw [store, varnode_eq he.source, ok_bind, Transfer.store]
  split
  · exact carries_none
  · split
    · rw [hok, ok_bind]
      exact carries_some hlaid
    · split
      · rw [fromPointer_eq hs he, ok_bind]
        exact carries_some hs.laid
      · exact carries_none

omit hs he in
private theorem isScaleOf_eq (pointeeSize : Nat) (scale : UInt64) :
    isScaleOf pointeeSize scale = .ok (Transfer.isScaleOf pointeeSize scale) := by
  rw [isScaleOf, Transfer.isScaleOf]
  split
  · rename_i hzero
    simp [hzero]
  · rename_i hne
    rw [mod_eq (Nat.pos_of_ne_zero hne), ok_bind]
    simp [hne]

omit hs in
private theorem scaledAddend_eq (pointeeSize : Nat) :
    scaledAddend g e.op pointeeSize = .ok (Transfer.scaledAddend g e.op pointeeSize) := by
  rw [scaledAddend, constant?_eq he.wired, ok_bind, Transfer.scaledAddend]
  cases g.constant? e.op 2 with
  | none => rfl
  | some scale =>
    dsimp only
    rw [constant?_eq he.wired, ok_bind]
    cases g.constant? e.op 1 with
    | some count => rfl
    | none =>
      dsimp only
      rw [isScaleOf_eq, ok_bind]
      split <;> rfl

omit hs he in
private theorem computedAddend_eq (hg : g.WellFormed) (hv : v < g.varnodes.size)
    (pointeeSize : Nat) :
    computedAddend g v pointeeSize = .ok (Transfer.computedAddend g v pointeeSize) := by
  rw [computedAddend, varnode_eq hv, ok_bind, Transfer.computedAddend]
  cases ho : (g.varnode v).definition with
  | none =>
    dsimp only
    split <;> rfl
  | some o =>
    dsimp only
    rw [op_eq (hg.lt_of_definition ho), ok_bind]
    split
    · rw [constant?_eq (hg.wired o), ok_bind]
      cases g.constant? (g.op o) 1 with
      | none => rfl
      | some scale =>
        dsimp only
        split
        · rfl
        · rw [isScaleOf_eq, ok_bind]
          split <;> rfl
    · split <;> rfl

private theorem plainAddend_eq (hg : g.WellFormed) (slot pointeeSize : Nat) :
    plainAddend g s e.op slot pointeeSize =
      .ok (Transfer.plainAddend g s e.op slot pointeeSize) := by
  rw [plainAddend, Transfer.plainAddend]
  cases hv : e.op.input? (if slot = 0 then 1 else 0) with
  | none => rfl
  | some v =>
    have hlt := he.wired.inputs v (Graph.mem_inputs_of_input? hv)
    dsimp only
    rw [varnode_eq hlt, ok_bind]
    split
    · rw [temporary_eq hs hlt, ok_bind, metatype_eq ((hs.valid_of hlt).temporary v), ok_bind]
      split <;> rfl
    · exact computedAddend_eq hg hlt pointeeSize

/-- What an op adds to a pointer is found without a fault. -/
theorem addend_eq (hg : g.WellFormed) (slot pointeeSize : Nat) :
    addend g s e.op slot pointeeSize = .ok (Transfer.addend g s e.op slot pointeeSize) := by
  unfold addend Transfer.addend
  cases e.op.opcode with
  | ptrAdd =>
    dsimp only
    split
    · exact scaledAddend_eq he pointeeSize
    · rfl
  | ptrSub =>
    dsimp only
    split
    · rw [constant?_eq he.wired, ok_bind]
      rfl
    · rfl
  | intAdd => exact plainAddend_eq hs he hg slot pointeeSize
  | _ => rfl

private theorem advance_eq {result : Nat} (units : UInt64) :
    advance g s e result units = .ok (Transfer.advance g s e result units) ∧
      (Transfer.advance g s e result units).table.Laid g.spaces.size := by
  have hvalid := hs.valid_of he.dest
  rw [advance, wordSize_eq he.type, ok_bind, Transfer.advance]
  generalize (units * UInt64.ofNat (s.types.wordSize e.type)).toNat = bytes
  obtain ⟨hok, hlaid⟩ := descend_eq hvalid.types hs.laid he.type (e.op.opcode ≠ .ptrSub) bytes
  obtain ⟨hgrows, hhas⟩ :=
    TypeTable.grows_descend hvalid.types he.type (e.op.opcode ≠ .ptrSub) bytes
  dsimp only
  rw [hok, ok_bind]
  generalize s.types.descend (e.op.opcode ≠ .ptrSub) e.type bytes = landing at hlaid hgrows hhas ⊢
  cases hptr : landing.pointer with
  | none => exact ⟨rfl, hlaid⟩
  | some ptr =>
    have hwf := hgrows.wellFormed hvalid.types
    have hptr := hhas ptr hptr
    have hbyte := landing.table.gives_atom 1 .unknown
    dsimp only
    rw [varnode_eq he.source, ok_bind, isSpacebasePointer_eq hwf hptr, ok_bind]
    split
    · rw [size_eq hptr, ok_bind, wordSize_eq hptr, ok_bind]
      exact ⟨pointerSized_eq _ _ hbyte.has,
        (hlaid.atom (by decide) .unknown).pointerSized (hlaid.size_lt ptr) _ hbyte.has⟩
    · exact ⟨rfl, hlaid⟩

private theorem resultType_eq :
    resultType s e = .ok ((e.op.output.map s.temporary).getD e.type) := by
  rw [resultType]
  cases hout : e.op.output with
  | none => rfl
  | some out => exact temporary_eq hs (he.wired.output out hout)

/-- The type of a sum is found without a fault. -/
theorem sum_eq (hg : g.WellFormed) (slot : Nat) :
    sum g s e slot = .ok (Transfer.sum g s e slot) ∧
      (Transfer.sum g s e slot).table.Laid g.spaces.size := by
  have hvalid := hs.valid_of he.dest
  rw [sum, resultType_eq hs he, ok_bind, pointee?_eq he.type, ok_bind, Transfer.sum]
  generalize (e.op.output.map s.temporary).getD e.type = result
  cases hp : s.types.pointee? e.type with
  | none => exact ⟨rfl, hs.laid⟩
  | some pointee =>
    dsimp only
    rw [size_eq (hvalid.types.has_pointee he.type hp), ok_bind, addend_eq hs he hg, ok_bind]
    cases Transfer.addend g s e.op slot (s.types.size pointee) with
    | other => exact ⟨rfl, hs.laid⟩
    | index => exact ⟨rfl, hs.laid⟩
    | offset units => exact advance_eq hs he units

private theorem sumEdge_eq (hg : g.WellFormed) : sumEdge g s e = .ok (Transfer.sumEdge g s e) ∧
    (Transfer.sumEdge g s e).table.Laid g.spaces.size := by
  rw [sumEdge, Transfer.sumEdge]
  cases e.inSlot with
  | output =>
    dsimp only
    rw [temporary_eq hs he.dest, ok_bind]
    exact ⟨rfl, hs.laid⟩
  | input slot => exact sum_eq hs he hg slot

private theorem intAdd_carries (hg : g.WellFormed) :
    Carries g (intAdd g s e) (Transfer.intAdd g s e) := by
  obtain ⟨hok, hlaid⟩ := sumEdge_eq hs he hg
  rw [intAdd, metatype_eq he.type, ok_bind, Transfer.intAdd]
  split
  · split
    · exact carries_none
    · rw [hok, ok_bind]
      exact carries_some hlaid
  · split
    · rw [constant?_eq he.wired, ok_bind]
      split
      · exact carries_some hs.laid
      · exact carries_none
    · exact carries_none

private theorem ptrSub_carries (hg : g.WellFormed) :
    Carries g (ptrSub g s e) (Transfer.ptrSub g s e) := by
  obtain ⟨hok, hlaid⟩ := sumEdge_eq hs he hg
  rw [ptrSub, metatype_eq he.type, ok_bind, Transfer.ptrSub]
  split
  · exact carries_none
  · rw [hok, ok_bind]
    exact carries_some hlaid

private theorem ptrAdd_carries (hg : g.WellFormed) :
    Carries g (ptrAdd g s e) (Transfer.ptrAdd g s e) := by
  rw [ptrAdd, Transfer.ptrAdd]
  split
  · exact carries_none
  · exact ptrSub_carries hs he hg

omit hs in
private theorem truncationOffset?_eq (hi : g.Intact) :
    truncationOffset? g e = .ok (Transfer.truncationOffset? g e) := by
  rw [truncationOffset?, constant?_eq he.wired, ok_bind, Transfer.truncationOffset?]
  cases g.constant? e.op 1 with
  | none => rfl
  | some c =>
    dsimp only
    rw [varnode_eq he.source, ok_bind, varnode_eq he.dest, ok_bind,
      space_eq (hi.valueSpaces _ he.source), ok_bind]
    split
    · rfl
    · split
      · split
        · rename_i hfits
          rw [sub_eq (by omega), ok_bind, sub_eq (by omega), ok_bind]
          rfl
        · rfl
      · rfl

/-- Truncations carry types without a fault. -/
theorem subpiece_carries (hi : g.Intact) :
    Carries g (subpiece g s e) (Transfer.subpiece g s e) := by
  have hvalid := hs.valid_of he.dest
  rw [subpiece, metatype_eq he.type, ok_bind, Transfer.subpiece]
  split
  · rw [truncationOffset?_eq he hi, ok_bind]
    cases Transfer.truncationOffset? g e with
    | none => exact carries_none
    | some offset =>
      dsimp only
      rw [varnode_eq he.dest, ok_bind, exactPiece_eq hvalid.types hs.laid he.type, ok_bind]
      cases s.types.exactPiece e.type offset (g.varnode e.dest).size with
      | none => exact carries_none
      | some piece => exact carries_some hs.laid
  · exact carries_none

/-- Whatever an edge carries, it is found by reading values, ops and types that exist. -/
theorem transfer_carries (hg : g.WellFormed) (hi : g.Intact) :
    Carries g (transfer g s e) (Transfer.transfer g s e) := by
  unfold transfer Transfer.transfer
  cases e.op.opcode with
  | copy | multiEqual => exact copy_carries hs he
  | indirect => exact indirect_carries hs he
  | intEqual | intNotEqual | intLess | intLessEqual => exact comparison_carries hs he
  | intSless | intSlessEqual => exact signedComparison_carries hs he
  | load => exact load_carries hs he
  | store => exact store_carries hs he
  | intAdd => exact intAdd_carries hs he hg
  | ptrAdd => exact ptrAdd_carries hs he hg
  | ptrSub => exact ptrSub_carries hs he hg
  | subpiece => exact subpiece_carries hs he hi
  | _ => exact carries_none

end Edges

end Checked

end TypeRecovery
