import TypeRecovery.Graph.Basic

/-!
# Possible-value masks

The mask of a value has a bit for each bit that may be non-zero. The masks of written values are
computed from those of the unwritten ones by sweeping over the ops until nothing changes. The
number of sweeps is bounded, and when the bound is hit every written value gets the full mask of
its size.
-/

namespace TypeRecovery

/-- The masks of all values of a graph. -/
abbrev Masks := Array UInt64

/-- The mask of a value. -/
def Masks.get (m : Masks) (v : VarnodeId) : UInt64 := (m[v]?).getD 0

namespace Graph

/-- The mask with every bit. -/
def allBits : UInt64 := 0xffffffffffffffff

/-- The mask of an operand; nothing is known of a missing one. -/
def operandMask (mask : VarnodeId → UInt64) (op : Op) (index : Nat) : UInt64 :=
  match op.input? index with
  | some v => mask v
  | none => allBits

/-- The number of bits below the first part of a concatenation, counted in a 32-bit word. -/
def lowBits (g : Graph) (op : Op) : UInt32 :=
  ((op.input? 1).elim 0 fun v => UInt32.ofNat (g.varnode v).size) * 8

/-- The bits that the result of an op may have when each value has the bits of its mask. -/
def opMask (g : Graph) (mask : VarnodeId → UInt64) (op : Op) : UInt64 :=
  if op.opcode.isBoolean then 1
  else
    match op.opcode with
    | .copy | .intZext => operandMask mask op 0
    | .multiEqual | .intOr | .intXor => op.inputs.foldl (fun acc v => acc ||| mask v) 0
    | .intAnd => operandMask mask op 0 &&& operandMask mask op 1
    | .piece =>
      shiftLeft (operandMask mask op 0) (g.lowBits op).toNat ||| operandMask mask op 1
    | .subpiece =>
      match g.constant? op 1 with
      | some c =>
        if c.address.offset < 8 then
          shiftRight (operandMask mask op 0) (8 * c.address.offset.toNat)
        else allBits
      | none => allBits
    | .intLeft =>
      match g.constant? op 1 with
      | some c =>
        if c.address.offset < 64 then shiftLeft (operandMask mask op 0) c.address.offset.toNat
        else allBits
      | none => allBits
    | .intRight =>
      match g.constant? op 1 with
      | some c =>
        if c.address.offset < 64 then shiftRight (operandMask mask op 0) c.address.offset.toNat
        else allBits
      | none => allBits
    | _ => allBits

/-- The bits that an op gives to its result, cut to the size of the result. -/
def resultMask (g : Graph) (mask : VarnodeId → UInt64) (op : Op) (out : VarnodeId) : UInt64 :=
  g.opMask mask op &&& byteMask (g.varnode out).size

/-- The masks before the first sweep: those of written values are empty. -/
def startMasks (g : Graph) : Masks :=
  g.varnodes.map fun node => if node.isWritten then 0 else node.mask

/-- Add the bits that one op gives to its result. -/
def sweepOp (g : Graph) (m : Masks) (op : Op) : Masks :=
  match op.output with
  | none => m
  | some out => m.modify out (· ||| g.resultMask m.get op out)

/-- Add the bits that each op, in order, gives to its result. -/
def sweep (g : Graph) (m : Masks) : Masks := g.ops.foldl g.sweepOp m

/-- Give every result the full mask of its size. -/
def fullMasks (g : Graph) (m : Masks) : Masks :=
  g.ops.foldl (fun m op =>
    match op.output with
    | none => m
    | some out => m.modify out fun _ => byteMask (g.varnode out).size) m

/-- Sweep until nothing changes; if each of `sweeps` sweeps changed something, give up. -/
def settleMasks (g : Graph) : (sweeps : Nat) → Masks → Masks
  | 0, m => g.fullMasks m
  | sweeps + 1, m =>
    let next := g.sweep m
    if next = m then m else g.settleMasks sweeps next

/-- The number of sweeps after which the computation gives up. -/
def maxSweeps : Nat := 64

/-- The masks of all values, computed from those of the unwritten ones. -/
def masks (g : Graph) : Masks := g.settleMasks maxSweeps g.startMasks

/-- Install the computed masks of all values. -/
def computeMasks (g : Graph) : Graph :=
  let m := g.masks
  { g with varnodes := g.varnodes.mapIdx fun v node => { node with mask := m.get v } }

end Graph

end TypeRecovery
