/-!
# Opcodes

The closed set of operations, and what their results are known to be whatever their operands.
-/

namespace TypeRecovery

/-- What an operation computes. -/
inductive Opcode where
  | copy
  | load
  | store
  | branch
  | cbranch
  | branchInd
  | call
  | callInd
  | callOther
  | ret
  | intEqual
  | intNotEqual
  | intSless
  | intSlessEqual
  | intLess
  | intLessEqual
  | intZext
  | intSext
  | intAdd
  | intSub
  | intCarry
  | intScarry
  | intSborrow
  | intTwosComp
  | intNegate
  | intXor
  | intAnd
  | intOr
  | intLeft
  | intRight
  | intSright
  | intMult
  | intDiv
  | intSdiv
  | intRem
  | intSrem
  | boolNegate
  | boolXor
  | boolAnd
  | boolOr
  | floatEqual
  | floatNotEqual
  | floatLess
  | floatLessEqual
  | floatNan
  | floatAdd
  | floatSub
  | floatMult
  | floatDiv
  | floatNeg
  | floatAbs
  | floatSqrt
  | floatOfInt
  | floatOfFloat
  | floatTrunc
  | multiEqual
  | indirect
  | piece
  | subpiece
  | cast
  | ptrAdd
  | ptrSub
  deriving DecidableEq, Repr, Inhabited

namespace Opcode

/-- Every opcode. -/
def all : List Opcode :=
  [copy, load, store, branch, cbranch, branchInd, call, callInd, callOther, ret, intEqual,
    intNotEqual, intSless, intSlessEqual, intLess, intLessEqual, intZext, intSext, intAdd,
    intSub, intCarry, intScarry, intSborrow, intTwosComp, intNegate, intXor, intAnd, intOr,
    intLeft, intRight, intSright, intMult, intDiv, intSdiv, intRem, intSrem, boolNegate,
    boolXor, boolAnd, boolOr, floatEqual, floatNotEqual, floatLess, floatLessEqual, floatNan,
    floatAdd, floatSub, floatMult, floatDiv, floatNeg, floatAbs, floatSqrt, floatOfInt,
    floatOfFloat, floatTrunc, multiEqual, indirect, piece, subpiece, cast, ptrAdd, ptrSub]

/-- The mnemonic of an opcode. -/
def name : Opcode → String
  | copy => "COPY"
  | load => "LOAD"
  | store => "STORE"
  | branch => "BRANCH"
  | cbranch => "CBRANCH"
  | branchInd => "BRANCHIND"
  | call => "CALL"
  | callInd => "CALLIND"
  | callOther => "CALLOTHER"
  | ret => "RETURN"
  | intEqual => "INT_EQUAL"
  | intNotEqual => "INT_NOTEQUAL"
  | intSless => "INT_SLESS"
  | intSlessEqual => "INT_SLESSEQUAL"
  | intLess => "INT_LESS"
  | intLessEqual => "INT_LESSEQUAL"
  | intZext => "INT_ZEXT"
  | intSext => "INT_SEXT"
  | intAdd => "INT_ADD"
  | intSub => "INT_SUB"
  | intCarry => "INT_CARRY"
  | intScarry => "INT_SCARRY"
  | intSborrow => "INT_SBORROW"
  | intTwosComp => "INT_2COMP"
  | intNegate => "INT_NEGATE"
  | intXor => "INT_XOR"
  | intAnd => "INT_AND"
  | intOr => "INT_OR"
  | intLeft => "INT_LEFT"
  | intRight => "INT_RIGHT"
  | intSright => "INT_SRIGHT"
  | intMult => "INT_MULT"
  | intDiv => "INT_DIV"
  | intSdiv => "INT_SDIV"
  | intRem => "INT_REM"
  | intSrem => "INT_SREM"
  | boolNegate => "BOOL_NEGATE"
  | boolXor => "BOOL_XOR"
  | boolAnd => "BOOL_AND"
  | boolOr => "BOOL_OR"
  | floatEqual => "FLOAT_EQUAL"
  | floatNotEqual => "FLOAT_NOTEQUAL"
  | floatLess => "FLOAT_LESS"
  | floatLessEqual => "FLOAT_LESSEQUAL"
  | floatNan => "FLOAT_NAN"
  | floatAdd => "FLOAT_ADD"
  | floatSub => "FLOAT_SUB"
  | floatMult => "FLOAT_MULT"
  | floatDiv => "FLOAT_DIV"
  | floatNeg => "FLOAT_NEG"
  | floatAbs => "FLOAT_ABS"
  | floatSqrt => "FLOAT_SQRT"
  | floatOfInt => "FLOAT_INT2FLOAT"
  | floatOfFloat => "FLOAT_FLOAT2FLOAT"
  | floatTrunc => "FLOAT_TRUNC"
  | multiEqual => "MULTIEQUAL"
  | indirect => "INDIRECT"
  | piece => "PIECE"
  | subpiece => "SUBPIECE"
  | cast => "CAST"
  | ptrAdd => "PTRADD"
  | ptrSub => "PTRSUB"

/-- The opcode with a mnemonic. -/
def ofName? (name : String) : Option Opcode := all.find? (·.name = name)

/-- Whether the operation joins the values of different control-flow paths. -/
def isMerge : Opcode → Bool
  | multiEqual | indirect => true
  | _ => false

/-- Whether the result can only be zero or one. -/
def isBoolean : Opcode → Bool
  | intEqual | intNotEqual | intSless | intSlessEqual | intLess | intLessEqual
  | intCarry | intScarry | intSborrow
  | boolNegate | boolXor | boolAnd | boolOr
  | floatEqual | floatNotEqual | floatLess | floatLessEqual | floatNan => true
  | _ => false

/-- The fewest operands the operation makes sense with. -/
def minInputs : Opcode → Nat
  | store | ptrAdd => 3
  | load | subpiece | ptrSub | indirect | cbranch | piece => 2
  | intAdd | intSub | intXor | intAnd | intOr | intLeft | intRight | intSright
  | intMult | intDiv | intSdiv | intRem | intSrem
  | floatAdd | floatSub | floatMult | floatDiv => 2
  | boolNegate | floatNan => 1
  | op => if op.isBoolean then 2 else 1

end Opcode

end TypeRecovery
