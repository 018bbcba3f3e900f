import TypeRecovery.Routine

/-!
# Types implied by a single op

Each opcode expects its operands, and delivers its result, in some metatype. The most specific of
these expectations over the ops around a value is the first guess at its type.
-/

namespace TypeRecovery

namespace Opcode

/-- The metatype in which an operation takes its operands. -/
def operandMetatype : Opcode → Metatype
  | intEqual | intNotEqual | intSless | intSlessEqual | intScarry | intSborrow => .int
  | intLess | intLessEqual | intCarry => .uint
  | intAdd | intSub | intMult | intTwosComp | intSext => .int
  | intSright | intSdiv | intSrem => .int
  | intZext | intNegate | intXor | intAnd | intOr | intLeft | intRight | intDiv | intRem => .uint
  | boolNegate | boolXor | boolAnd | boolOr => .bool
  | floatEqual | floatNotEqual | floatLess | floatLessEqual | floatNan => .float
  | floatAdd | floatSub | floatMult | floatDiv | floatNeg | floatAbs | floatSqrt
  | floatOfFloat | floatTrunc => .float
  | floatOfInt => .int
  | ptrAdd => .int
  | _ => .unknown

/-- The metatype in which an operation delivers its result. -/
def resultMetatype : Opcode → Metatype
  | intEqual | intNotEqual | intSless | intSlessEqual | intScarry | intSborrow => .bool
  | intLess | intLessEqual | intCarry => .bool
  | intAdd | intSub | intMult | intTwosComp | intSext => .int
  | intSright | intSdiv | intSrem => .int
  | intZext | intNegate | intXor | intAnd | intOr | intLeft | intRight | intDiv | intRem => .uint
  | boolNegate | boolXor | boolAnd | boolOr => .bool
  | floatEqual | floatNotEqual | floatLess | floatLessEqual | floatNan => .bool
  | floatAdd | floatSub | floatMult | floatDiv | floatNeg | floatAbs | floatSqrt
  | floatOfFloat | floatOfInt => .float
  | floatTrunc => .int
  | _ => .unknown

/-- Whether an operation computes an address from a base at operand 0. -/
def isPointerStep : Opcode → Bool
  | ptrAdd | ptrSub => true
  | _ => false

/-- Whether an operation shifts by the amount at operand 1. -/
def isShift : Opcode → Bool
  | intLeft | intRight | intSright => true
  | _ => false

end Opcode

namespace Transfer

/-- The type of a returned value of `size` bytes: that of the prototype if it has this size, and
unknown bytes otherwise. -/
def returnedType (g : Graph) (types : TypeTable) (size : Nat) : Interned :=
  match g.prototype.outputType with
  | some t =>
    if types.metatype t ≠ .void ∧ types.size t = size then ⟨t, types⟩ else types.unknown size
  | none => types.unknown size

/-- The type in which an op takes the operand at a position. -/
def localInput (g : Graph) (s : TypeState) (op : Op) (index : Nat) : Interned :=
  match op.input? index with
  | none => s.types.unknown 1
  | some v =>
    let size := (g.varnode v).size
    if op.opcode.isPointerStep ∧ index = 0 then ⟨s.committed v, s.types⟩
    else if op.opcode = .ptrSub then s.types.unknown size
    else if op.opcode = .ret ∧ 0 < index then returnedType g s.types size
    else if op.opcode.isShift ∧ index = 1 then s.types.base size .int
    else s.types.base size op.opcode.operandMetatype

/-- The type in which an op delivers its result. -/
def localOutput (g : Graph) (s : TypeState) (op : Op) : Interned :=
  match op.output with
  | none => s.types.void
  | some v =>
    if op.opcode.isPointerStep then ⟨s.committed v, s.types⟩
    else s.types.base (g.varnode v).size op.opcode.resultMetatype

/-- The more specific of the guess so far and the type in which a reader takes the value. -/
def refineByReader (g : Graph) (s : TypeState) (v : VarnodeId)
    (best : Option TypeId × TypeTable) (reader : OpId) : Option TypeId × TypeTable :=
  match (g.op reader).slotOf? v with
  | none => best
  | some index =>
    let hint := localInput g (s.withTypes best.2) (g.op reader) index
    match best.1 with
    | none => (some hint.id, hint.table)
    | some current => (some (hint.table.moreSpecificOf current hint.id), hint.table)

/-- The most specific type in which readers take a value, starting from a guess. -/
def refineByReaders (g : Graph) (s : TypeState) (v : VarnodeId)
    (start : Option TypeId × TypeTable) : Interned :=
  let best := (g.varnode v).readers.foldl (refineByReader g s v) start
  match best.1 with
  | some t => ⟨t, best.2⟩
  | none => best.2.unknown (g.varnode v).size

/-- A guess at the type of a value, and whether readers must not refine it. -/
structure Guess where
  /-- The type. -/
  id : TypeId
  /-- Whether the type must not be inferred from how the value is read. -/
  blocks : Bool
  /-- The table after the candidates were interned. -/
  table : TypeTable
  deriving DecidableEq, Repr

/-- The type implied for a value by the ops that write and read it. -/
def localType (g : Graph) (s : TypeState) (v : VarnodeId) : Guess :=
  if s.locked v then ⟨s.committed v, false, s.types⟩
  else
    match (g.varnode v).definition with
    | none =>
      let t := refineByReaders g s v (none, s.types)
      ⟨t.id, false, t.table⟩
    | some o =>
      let written := localOutput g s (g.op o)
      if (g.op o).stopsPropagation then ⟨written.id, true, written.table⟩
      else
        let t := refineByReaders g s v (some written.id, written.table)
        ⟨t.id, false, t.table⟩

end Transfer

end TypeRecovery
