import TypeRecovery.Proofs.DataType.Descent
import TypeRecovery.Proofs.Transfer.Carried

/-!
# Where pointer arithmetic lands

A known number of units is added to a pointer, and the pointer that results is found by descending
from the pointee to the place that is reached. The offset is counted in bytes, wraps at 64 bits, is
read with the sign of the pointer, and wraps once more at the size of the pointee. What is found is
a component that starts there, whatever the constant.
-/

namespace TypeRecovery

namespace Transfer

open TypeTable

variable {g : Graph} {s : TypeState} {e : Edge} {slot : Nat}

/-- The bytes that units of a pointer span, in words of 64 bits. -/
theorem toNat_units_mul (units : UInt64) (wordSize : Nat) :
    (units * UInt64.ofNat wordSize).toNat = units.toNat * wordSize % UInt64.size := by
  simp [UInt64.size]

/-- An edge from an operand of pointer arithmetic to the result carries the type of the sum. -/
theorem transfer_eq_sum {pointee size : Nat}
    (hop : e.op.opcode = .intAdd ∨ e.op.opcode = .ptrAdd ∨ e.op.opcode = .ptrSub)
    (hin : e.inSlot = .input slot) (hout : e.outSlot = .output)
    (hptr : s.types.pointee? e.type = some pointee) (hadd : addend g s e.op slot size ≠ .other) :
    transfer g s e = some (sum g s e slot) := by
  have hmeta := metatype_of_pointee? hptr
  have hbetween : e.betweenInputs = false := by simp [Edge.betweenInputs, hout, Slot.isInput]
  have hsum : sumEdge g s e = sum g s e slot := by rw [sumEdge, hin]
  rcases hop with hop | hop | hop
  · simp [transfer, hop, intAdd, hmeta, hbetween, hsum]
  · -- the scale is an operand too, but nothing flows out of it
    have hbase := slot_of_addend (.inl hop) hadd
    simp [transfer, hop, ptrAdd, ptrSub, hmeta, hbetween, hsum, Edge.touchesInput, hin, hout, hbase]
  · simp [transfer, hop, ptrSub, hmeta, hbetween, hsum]

/-- Away from the base register of the frame the sum has the pointer on which the descent lands, or
else the type of the edge or of the result. -/
theorem advance_eq_of_landing {result : TypeId} {units : UInt64} {landing : Landing}
    (hbase : (g.varnode e.source).spaceBase = false)
    (hland : s.types.descend (e.op.opcode ≠ .ptrSub) e.type
      (units.toNat * s.types.wordSize e.type % UInt64.size) = landing) :
    advance g s e result units =
      ⟨landing.pointer.getD (if units = 0 then e.type else result), landing.table⟩ := by
  simp only [advance, toNat_units_mul, hland, hbase]
  cases landing.pointer <;> simp

/-- Adding a known number of units to a pointer gives the type the result has already, the pointer
itself, or a pointer of the same size and units to a component of the pointee, and that component
starts at the byte to which the offset wraps. The descent that finds it ends by itself. -/
theorem transfer_startsAt {pointerSize pointee : Nat} {units : UInt64}
    (hreach : Reaches (empty pointerSize) s.types) (he : e.Joins)
    (hop : e.op.opcode = .intAdd ∨ e.op.opcode = .ptrAdd ∨ e.op.opcode = .ptrSub)
    (hin : e.inSlot = .input slot) (hout : e.outSlot = .output)
    (hbase : (g.varnode e.source).spaceBase = false)
    (hptr : s.types.pointee? e.type = some pointee) (hwide : 5 ≤ s.types.size e.type)
    (hspace : s.types.metatype pointee ≠ .spacebase)
    (hfits : s.types.size pointee < UInt32.size)
    (hadd : addend g s e.op slot (s.types.size pointee) = .offset units) :
    let bytes := units.toNat * s.types.wordSize e.type % UInt64.size
    ∃ new landing, transfer g s e = some new ∧
      Follows (e.op.opcode ≠ .ptrSub) s.types e.type bytes landing ∧
      match landing.pointer with
      | none => new.id = if units = 0 then e.type else s.temporary e.dest
      | some ptr => new.id = ptr ∧ ∃ component byte : Nat,
          new.table.shape ptr = .pointer component (s.types.wordSize e.type) ∧
          new.table.size ptr = s.types.size e.type ∧
          (byte : Int) =
            signExtend bytes (s.types.size e.type) % (s.types.size pointee : Int) ∧
          s.types.ComponentAt pointee byte component := by
  intro bytes
  obtain ⟨wordSize, hshape⟩ := pointee?_eq_some_iff.mp hptr
  have hword : s.types.wordSize e.type = wordSize := by rw [TypeTable.wordSize, hshape]
  have hdest : e.op.output = some e.dest := by simpa [hout, Op.at?] using he.dest
  obtain ⟨hfollows, hstarts⟩ :=
    hreach.descend_startsAt (e.op.opcode ≠ .ptrSub) bytes hshape hwide hfits hspace
  generalize hland : s.types.descend (e.op.opcode ≠ .ptrSub) e.type bytes = landing
    at hfollows hstarts
  have hsum := transfer_eq_sum hop hin hout hptr (by rw [hadd]; exact Addend.noConfusion)
  simp only [sum, hptr, hadd, hdest, advance_eq_of_landing hbase hland] at hsum
  refine ⟨_, landing, hsum, hfollows, ?_⟩
  cases hp : landing.pointer with
  | none => simp
  | some ptr =>
    obtain ⟨component, byte, hcomponent, hsize, hbyte, hat⟩ := hstarts ptr hp
    exact ⟨rfl, component, byte, hword ▸ hcomponent, hsize, hbyte, hat⟩

/-- A structure of an integer and three more in a row, another with two of these in a row, and a
pointer to it. -/
def rowTypes : TypeTable :=
  (TypeTable.empty 8).perform (.base 4 .int) |>.perform (.array 0 3)
    |>.perform (.struct "s" 20 [⟨0, "a", 0⟩, ⟨8, "b", 1⟩]) |>.perform (.array 2 2)
    |>.perform (.struct "p" 40 [⟨0, "rows", 3⟩]) |>.perform (.pointer 4 1) |>.perform (.unknown 8)

/-- The table of the row types is reached. -/
theorem reaches_rowTypes : (TypeTable.empty 8).Reaches rowTypes := by
  refine .call _ (.call _ (.call _ (.call _ (.call _ (.call _ (.call _ .refl ?_) ?_) ?_) ?_) ?_)
    ?_) ?_
  all_goals decide +kernel

/-- The constant -24 is added to a `p *`. -/
def backward : Routine :=
  let values := (Routine.empty "f" .simple 2 rowTypes).newInput 8 ⟨1, 0⟩
    |>.newConstant 8 0xffffffffffffffe8 |>.newVarnode 8 ⟨1, 8⟩
  (values.modifyState (·.lock 0 5)).modifyGraph fun g =>
    g.linkOp { opcode := .intAdd, address := ⟨1, 0⟩, inputs := [0, 1], output := some 2 }

/-- The edge from the pointer to the sum. -/
def backwardEdge : Edge := ⟨backward.graph.op 0, 5, 0, 2, .input 0, .output⟩

/-- The offset wraps to byte 16, where the last integer of the first row starts. -/
theorem backward_startsAt :
    (TypeTable.empty 8).Reaches backward.state.types ∧ backwardEdge.Joins ∧
      backward.state.types.pointee? backwardEdge.type = some 4 ∧
      addend backward.graph backward.state backwardEdge.op 0 40 = .offset 0xffffffffffffffe8 ∧
      (∃ new, transfer backward.graph backward.state backwardEdge = some new ∧
        new.table.name new.id = "int4 *") ∧
      rowTypes.ComponentAt 4 16 0 := by
  have htypes : backward.state.types = rowTypes := by decide +kernel
  have hreach : (TypeTable.empty 8).Reaches backward.state.types := htypes ▸ reaches_rowTypes
  have hjoins : backwardEdge.Joins := ⟨by decide +kernel, by decide +kernel, by decide +kernel⟩
  have hptr : backward.state.types.pointee? backwardEdge.type = some 4 := by decide +kernel
  have hsize : backward.state.types.size 4 = 40 := by decide +kernel
  have hadd : addend backward.graph backward.state backwardEdge.op 0 40 =
      .offset 0xffffffffffffffe8 := by decide +kernel
  obtain ⟨new, landing, hnew, -, hplace⟩ := transfer_startsAt hreach hjoins
    (.inl (by decide +kernel)) rfl rfl (by decide +kernel) hptr (by decide +kernel)
    (by decide +kernel) (by decide +kernel) (hsize ▸ hadd)
  have hsum : (transfer backward.graph backward.state backwardEdge).map (fun new =>
      (new.id, new.table.name new.id, new.table.shape new.id)) =
      some (8, "int4 *", .pointer 0 1) := by decide +kernel
  simp only [hnew, Option.map_some, Option.some.injEq, Prod.mk.injEq] at hsum
  obtain ⟨hid, hname, hshape⟩ := hsum
  refine ⟨hreach, hjoins, hptr, hadd, ⟨new, hnew, hname⟩, ?_⟩
  cases hp : landing.pointer with
  | none =>
    have hother : backward.state.temporary backwardEdge.dest ≠ 8 := by decide +kernel
    simp [hp, hid, hother.symm] at hplace
  | some ptr =>
    rw [hp] at hplace
    obtain ⟨rfl, component, byte, hcomponent, -, hbyte, hat⟩ := hplace
    obtain ⟨rfl, -⟩ := Shape.pointer.inj (hshape.symm.trans hcomponent)
    obtain rfl : byte = 16 := Int.ofNat.inj (hbyte.trans (by decide +kernel))
    exact htypes ▸ hat

end Transfer

end TypeRecovery
