import Mathlib.Algebra.Group.Nat.Defs
import TypeRecovery.Proofs.Checked.Local
import TypeRecovery.Proofs.Description.References
import TypeRecovery.Proofs.Graph.Mask

/-!
# Checked runs of the computation of masks

The masks of values are computed while a function is built. The result of a concatenation takes the
bits of its first operand shifted by the bits of the second, and the number of these has to fit 32
bits.
-/

namespace TypeRecovery

/-- The second operands of concatenations have less than `2 ^ 32` bits. -/
def Graph.NarrowPieces (g : Graph) : Prop :=
  ∀ op ∈ g.ops, op.opcode = .piece → ∀ v ∈ op.input? 1, (g.varnode v).size < 2 ^ 29

instance (g : Graph) : Decidable g.NarrowPieces :=
  inferInstanceAs (Decidable (∀ op ∈ g.ops, op.opcode = .piece → ∀ v ∈ op.input? 1,
    (g.varnode v).size < 2 ^ 29))

namespace Checked

variable {g : Graph} {m : Masks} {op : Op}

/-- The mask of an operand; nothing is known of a missing one. -/
def operandMask (m : Masks) (op : Op) (index : Nat) : Checked UInt64 :=
  match op.input? index with
  | some v => look m v
  | none => .ok Graph.allBits

/-- The mask of the first operand after a shift by a constant less than `bound`. -/
def shiftedMask (g : Graph) (m : Masks) (op : Op) (bound : UInt64)
    (shift : UInt64 → Nat → UInt64) (scale : Nat) : Checked UInt64 := do
  match ← constant? g op 1 with
  | some c =>
    if c.address.offset < bound then
      return shift (← operandMask m op 0) (scale * c.address.offset.toNat)
    else return Graph.allBits
  | none => return Graph.allBits

/-- The bytes of the second operand. -/
def lowSize (g : Graph) (op : Op) : Checked Nat := do
  match op.input? 1 with
  | some v => return (← varnode g v).size
  | none => return 0

/-- The bits that the result of an op may have when each value has the bits of its mask. -/
def opMask (g : Graph) (m : Masks) (op : Op) : Checked UInt64 := do
  if op.opcode.isBoolean then return 1
  else
    match op.opcode with
    | .copy | .intZext => operandMask m op 0
    | .multiEqual | .intOr | .intXor =>
      op.inputs.foldlM (fun acc v => return acc ||| (← look m v)) 0
    | .intAnd => return (← operandMask m op 0) &&& (← operandMask m op 1)
    | .piece =>
      let bits ← within UInt32.size (8 * (← lowSize g op))
      return shiftLeft (← operandMask m op 0) bits ||| (← operandMask m op 1)
    | .subpiece => shiftedMask g m op 8 shiftRight 8
    | .intLeft => shiftedMask g m op 64 shiftLeft 1
    | .intRight => shiftedMask g m op 64 shiftRight 1
    | _ => return Graph.allBits

/-- Add the bits that one op gives to its result. -/
def sweepOp (g : Graph) (m : Masks) (op : Op) : Checked Masks := do
  match op.output with
  | none => return m
  | some out =>
    let node ← varnode g out
    let bits ← opMask g m op
    let _ ← look m out
    return m.modify out (· ||| (bits &&& byteMask node.size))

/-- Add the bits that each op, in order, gives to its result. -/
def sweep (g : Graph) (m : Masks) : Checked Masks := g.ops.toList.foldlM (sweepOp g) m

/-- Give the result of an op the full mask of its size. -/
def fullMask (g : Graph) (m : Masks) (op : Op) : Checked Masks := do
  match op.output with
  | none => return m
  | some out =>
    let node ← varnode g out
    let _ ← look m out
    return m.modify out fun _ => byteMask node.size

/-- Give every result the full mask of its size. -/
def fullMasks (g : Graph) (m : Masks) : Checked Masks := g.ops.toList.foldlM (fullMask g) m

/-- Sweep until nothing changes; if each of `sweeps` sweeps changed something, give up. -/
def settleMasks (g : Graph) : (sweeps : Nat) → Masks → Checked Masks
  | 0, m => fullMasks g m
  | sweeps + 1, m => do
    let next ← sweep g m
    if next = m then return m else settleMasks g sweeps next

/-- Install the computed masks of all values. -/
def computeMasks (g : Graph) : Checked Graph := do
  let m ← settleMasks g Graph.maxSweeps g.startMasks
  let masked ← (List.range g.varnodes.size).mapM fun v => do
    let node ← varnode g v
    return { node with mask := ← look m v }
  return { g with varnodes := masked.toArray }

private theorem look_mask (hm : m.size = g.varnodes.size) {v : Nat} (hv : v < g.varnodes.size) :
    look m v = .ok (m.get v) := by
  have hlt : v < m.size := hm ▸ hv
  rw [look_eq hlt, Masks.get, Array.getElem?_eq_getElem hlt, Option.getD_some]

section Ops

variable (hop : g.Wired op) (hm : m.size = g.varnodes.size)

include hop hm

private theorem operandMask_eq (index : Nat) :
    operandMask m op index = .ok (Graph.operandMask m.get op index) := by
  rw [operandMask, Graph.operandMask]
  cases hv : op.input? index with
  | none => rfl
  | some v => exact look_mask hm (hop.inputs v (Graph.mem_inputs_of_input? hv))

/-- A shifted mask is computed without a fault. -/
theorem shiftedMask_eq (bound : UInt64) (shift : UInt64 → Nat → UInt64) (scale : Nat) :
    shiftedMask g m op bound shift scale = .ok
      (match g.constant? op 1 with
      | some c =>
        if c.address.offset < bound then
          shift (Graph.operandMask m.get op 0) (scale * c.address.offset.toNat)
        else Graph.allBits
      | none => Graph.allBits) := by
  rw [shiftedMask, constant?_eq hop, ok_bind]
  cases g.constant? op 1 with
  | none => rfl
  | some c =>
    dsimp only
    split
    · rw [operandMask_eq hop hm, ok_bind]
      rfl
    · rfl

omit hm in
private theorem lowSize_eq :
    lowSize g op = .ok ((op.input? 1).elim 0 fun v => (g.varnode v).size) := by
  rw [lowSize]
  cases hv : op.input? 1 with
  | none => rfl
  | some v =>
    dsimp only
    rw [varnode_eq (hop.inputs v (Graph.mem_inputs_of_input? hv)), ok_bind]
    rfl

/-- The mask that an op computes has no fault if its low part is narrow. -/
theorem opMask_eq
    (hnarrow : op.opcode = .piece → ∀ v ∈ op.input? 1, (g.varnode v).size < 2 ^ 29) :
    opMask g m op = .ok (g.opMask m.get op) := by
  have hall : op.inputs.foldlM (fun acc v => return acc ||| (← look m v)) 0 =
      (.ok (op.inputs.foldl (fun acc v => acc ||| m.get v) 0) : Checked UInt64) :=
    (foldlM_eq (P := fun _ => True) trivial fun v hv acc _ => by
      rw [look_mask hm (hop.inputs v hv), ok_bind]
      exact ⟨rfl, trivial⟩).1
  rw [opMask, Graph.opMask]
  split
  · rfl
  · cases hopcode : op.opcode with
    | copy | intZext => exact operandMask_eq hop hm 0
    | multiEqual | intOr | intXor => exact hall
    | intAnd =>
      dsimp only
      rw [operandMask_eq hop hm, ok_bind, operandMask_eq hop hm, ok_bind]
      rfl
    | piece =>
      have hbits : 8 * ((op.input? 1).elim 0 fun v => (g.varnode v).size) < UInt32.size := by
        have hlimit : UInt32.size = 2 ^ 32 := rfl
        cases hv : op.input? 1 with
        | none =>
          rw [Option.elim_none]
          omega
        | some v =>
          have hsize := hnarrow hopcode v hv
          rw [Option.elim_some]
          omega
      dsimp only
      rw [lowSize_eq hop, ok_bind, within_eq hbits, ok_bind, operandMask_eq hop hm, ok_bind,
        operandMask_eq hop hm, ok_bind, Graph.toNat_lowBits hbits]
      rfl
    | subpiece => exact shiftedMask_eq hop hm 8 shiftRight 8
    | intLeft =>
      have h := shiftedMask_eq hop hm 64 shiftLeft 1
      simp only [Nat.one_mul] at h
      exact h
    | intRight =>
      have h := shiftedMask_eq hop hm 64 shiftRight 1
      simp only [Nat.one_mul] at h
      exact h
    | _ => rfl

/-- A sweep over an op has no fault if its low part is narrow. -/
theorem sweepOp_eq
    (hnarrow : op.opcode = .piece → ∀ v ∈ op.input? 1, (g.varnode v).size < 2 ^ 29) :
    sweepOp g m op = .ok (g.sweepOp m op) ∧ (g.sweepOp m op).size = g.varnodes.size := by
  rw [sweepOp, Graph.sweepOp]
  cases hout : op.output with
  | none => exact ⟨rfl, hm⟩
  | some out =>
    have hlt := hop.output out hout
    dsimp only
    rw [varnode_eq hlt, ok_bind, opMask_eq hop hm hnarrow, ok_bind, look_mask hm hlt, ok_bind]
    exact ⟨rfl, (Array.size_modify ..).trans hm⟩

private theorem fullMask_eq : fullMask g m op = .ok
    (match op.output with
    | none => m
    | some out => m.modify out fun _ => byteMask (g.varnode out).size) ∧
    (match op.output with
    | none => m
    | some out => m.modify out fun _ => byteMask (g.varnode out).size).size = g.varnodes.size := by
  rw [fullMask]
  cases hout : op.output with
  | none => exact ⟨rfl, hm⟩
  | some out =>
    have hlt := hop.output out hout
    dsimp only
    rw [varnode_eq hlt, ok_bind, look_mask hm hlt, ok_bind]
    exact ⟨rfl, (Array.size_modify ..).trans hm⟩

end Ops

/-- A sweep has no fault. -/
theorem sweep_eq (hg : g.WellFormed) (hnarrow : g.NarrowPieces)
    (hm : m.size = g.varnodes.size) :
    sweep g m = .ok (g.sweep m) ∧ (g.sweep m).size = g.varnodes.size := by
  rw [sweep, Graph.sweep, ← Array.foldl_toList]
  exact foldlM_eq (P := fun m : Masks => m.size = g.varnodes.size) hm fun op hop m hm =>
    sweepOp_eq (hg.wired_of_mem (Array.mem_toList_iff.mp hop)) hm
      (hnarrow op (Array.mem_toList_iff.mp hop))

/-- Full masks are set without a fault. -/
theorem fullMasks_eq (hg : g.WellFormed) (hm : m.size = g.varnodes.size) :
    fullMasks g m = .ok (g.fullMasks m) ∧ (g.fullMasks m).size = g.varnodes.size := by
  rw [fullMasks, Graph.fullMasks, ← Array.foldl_toList]
  exact foldlM_eq (P := fun m : Masks => m.size = g.varnodes.size) hm fun op hop m hm =>
    fullMask_eq (hg.wired_of_mem (Array.mem_toList_iff.mp hop)) hm

/-- Any number of sweeps has no fault. -/
theorem settleMasks_eq (hg : g.WellFormed) (hnarrow : g.NarrowPieces) (sweeps : Nat)
    (hm : m.size = g.varnodes.size) :
    settleMasks g sweeps m = .ok (g.settleMasks sweeps m) ∧
      (g.settleMasks sweeps m).size = g.varnodes.size := by
  induction sweeps generalizing m with
  | zero => exact fullMasks_eq hg hm
  | succ sweeps ih =>
    obtain ⟨hok, hnext⟩ := sweep_eq hg hnarrow hm
    rw [settleMasks, hok, ok_bind, Graph.settleMasks]
    split
    · exact ⟨rfl, hm⟩
    · exact ih hnext

/-- The masks of a graph are computed without a fault. -/
theorem computeMasks_eq (hg : g.WellFormed) (hnarrow : g.NarrowPieces) :
    computeMasks g = .ok g.computeMasks := by
  have hstart : g.startMasks.size = g.varnodes.size := Array.size_map
  obtain ⟨hok, hsize⟩ := settleMasks_eq hg hnarrow Graph.maxSweeps hstart
  have hmasked : ((List.range g.varnodes.size).map fun v =>
      { g.varnode v with mask := g.masks.get v }).toArray =
      g.varnodes.mapIdx fun v node => { node with mask := g.masks.get v } := by
    apply Array.ext
    · simp
    · intro v hv hv'
      have hlt : v < g.varnodes.size := by simpa using hv'
      simp [Graph.varnode, hlt]
  rw [computeMasks, hok, ok_bind, mapM_eq fun v hv => ?_, ok_bind, pure_eq_ok, hmasked,
    Graph.computeMasks]
  have hlt := List.mem_range.mp hv
  rw [varnode_eq hlt, ok_bind, look_mask hsize hlt, ok_bind]
  rfl

/-! ## Given masks -/

/-- Install the given mask of a value that is written, or of one that is not. -/
def setMaskIf (written : Bool) (g : Graph) (entry : VarnodeId × UInt64) : Checked Graph := do
  let node ← varnode g entry.1
  return if node.isWritten = written then g.setMask entry.1 entry.2 else g

/-- Install the given masks of the values that are written, or of those that are not. -/
def setMasks (written : Bool) (g : Graph) (given : List (VarnodeId × UInt64)) : Checked Graph :=
  given.foldlM (setMaskIf written) g

/-- Compute the masks of written values from those given for the others. -/
def installMasks (d : Description) (g : Graph) : Checked Graph := do
  let unwritten ← setMasks false g d.givenMasks
  let computed ← computeMasks unwritten
  setMasks true computed d.givenMasks

private theorem setMasks_eq (written : Bool) {given : List (VarnodeId × UInt64)}
    (h : ∀ x ∈ given, x.1 < g.varnodes.size) :
    setMasks written g given = .ok (Description.setMasks written g given) := by
  refine (foldlM_eq (P := fun x : Graph => x.varnodes.size = g.varnodes.size) rfl
    fun entry hentry x hx => ?_).1
  rw [setMaskIf, varnode_eq (hx ▸ h entry hentry), ok_bind]
  refine ⟨rfl, ?_⟩
  dsimp only
  split
  · exact (x.relabels_setMask _ _).size.trans hx
  · exact hx

/-- The masks of a description are installed without a fault. -/
theorem installMasks_eq {d : Description} (hg : g.WellFormed) (hnarrow : g.NarrowPieces)
    (hgiven : ∀ x ∈ d.givenMasks, x.1 < g.varnodes.size) :
    installMasks d g = .ok (d.installMasks g) := by
  have hunwritten := Description.relabels_setMasks false g d.givenMasks
  have hwf := hunwritten.wellFormed hg
  have hpieces : (Description.setMasks false g d.givenMasks).NarrowPieces := by
    intro op hop hpiece v hv
    rw [hunwritten.sizes]
    exact hnarrow op (hunwritten.ops ▸ hop) hpiece v hv
  rw [installMasks, setMasks_eq false hgiven, ok_bind, computeMasks_eq hwf hpieces, ok_bind]
  refine setMasks_eq true fun x hx => ?_
  rw [(Graph.relabels_computeMasks _).size, hunwritten.size]
  exact hgiven x hx

end Checked

end TypeRecovery
