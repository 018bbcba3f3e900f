import TypeRecovery.Proofs.Routine

/-!
# Masks that hold what the ops add

Sweeping over the ops only adds bits, so a sweep that changes nothing adds the bits of no op: the
masks it leaves hold what each op gives to its result. The full masks, which stand in when the
sweeps give up, hold it as well.
-/

namespace TypeRecovery

/-! ## Bits of words -/

/-- A number has no bit outside a mask. -/
def Within (x : Nat) (mask : UInt64) : Prop :=
  ∀ i, x.testBit i = true → mask.toNat.testBit i = true

private theorem within_iff {x : Nat} {mask : UInt64} : Within x mask ↔ x &&& mask.toNat = x := by
  constructor
  · intro h
    apply Nat.eq_of_testBit_eq
    intro i
    rw [Nat.testBit_and]
    cases hx : x.testBit i with
    | false => rfl
    | true => rw [h i hx]; rfl
  · intro h i hi
    rw [← h, Nat.testBit_and, Bool.and_eq_true] at hi
    exact hi.2

instance (x : Nat) (mask : UInt64) : Decidable (Within x mask) := decidable_of_iff' _ within_iff

/-- Being within a mask is transitive. -/
theorem Within.trans {x : Nat} {mask mask' : UInt64} (h : Within x mask)
    (h' : Within mask.toNat mask') : Within x mask' :=
  fun i hi => h' i (h i hi)

/-- The first mask is within the union. -/
theorem within_or_left (a b : UInt64) : Within a.toNat (a ||| b) := by
  intro i hi
  rw [UInt64.toNat_or, Nat.testBit_or, hi, Bool.true_or]

/-- The second mask is within the union. -/
theorem within_or_right (a b : UInt64) : Within b.toNat (a ||| b) := by
  intro i hi
  rw [UInt64.toNat_or, Nat.testBit_or, hi, Bool.or_true]

/-- Two masks that hold each other are the same. -/
theorem Within.antisymm {a b : UInt64} (h : Within a.toNat b) (h' : Within b.toNat a) : a = b := by
  apply UInt64.toNat_inj.mp
  apply Nat.eq_of_testBit_eq
  intro i
  exact Bool.eq_iff_iff.mpr ⟨h i, h' i⟩

/-- The mask of a number of bytes has their bits, up to 64 of them. -/
theorem testBit_byteMask (size i : Nat) :
    (byteMask size).toNat.testBit i = decide (i < 8 * min size 8) := by
  have hle : 2 ^ (8 * min size 8) ≤ 2 ^ 64 := Nat.pow_le_pow_right (by decide) (by omega)
  have hpos : 0 < 2 ^ (8 * min size 8) := Nat.two_pow_pos _
  rw [byteMask, wordBits, UInt64.toNat_ofNat', Nat.pow_eq, Nat.mod_eq_of_lt (by omega),
    Nat.testBit_two_pow_sub_one]

/-- Shifting left moves bits up. -/
theorem testBit_shiftLeft (word : UInt64) {amount i : Nat} (hi : i < 64) :
    (shiftLeft word amount).toNat.testBit i =
      (decide (amount ≤ i) && word.toNat.testBit (i - amount)) := by
  rw [shiftLeft]
  split
  · rename_i hamount
    rw [UInt64.toNat_shiftLeft, UInt64.toNat_ofNat', Nat.mod_eq_of_lt (by omega : amount < 2 ^ 64),
      Nat.mod_eq_of_lt hamount, Nat.testBit_mod_two_pow, Nat.testBit_shiftLeft]
    simp [hi]
  · have hnot : ¬amount ≤ i := by omega
    simp [hnot]

/-- Shifting right moves bits down. -/
theorem testBit_shiftRight (word : UInt64) (amount i : Nat) :
    (shiftRight word amount).toNat.testBit i = word.toNat.testBit (amount + i) := by
  rw [shiftRight]
  split
  · rename_i hamount
    rw [UInt64.toNat_shiftRight, UInt64.toNat_ofNat',
      Nat.mod_eq_of_lt (by omega : amount < 2 ^ 64), Nat.mod_eq_of_lt hamount,
      Nat.testBit_shiftRight]
  · have hlt : word.toNat < 2 ^ (amount + i) :=
      Nat.lt_of_lt_of_le word.toNat_lt (Nat.pow_le_pow_right (by decide) (by omega))
    rw [Nat.testBit_lt_two_pow hlt]
    simp

/-- The number of bits below the first part of a concatenation is exact if it fits 32 bits. -/
theorem Graph.toNat_lowBits {g : Graph} {op : Op}
    (h : 8 * ((op.input? 1).elim 0 fun v => (g.varnode v).size) < UInt32.size) :
    (g.lowBits op).toNat = 8 * (op.input? 1).elim 0 fun v => (g.varnode v).size := by
  rw [lowBits, UInt32.toNat_mul, UInt32.toNat_ofNat, Nat.mul_comm]
  cases hv : op.input? 1 with
  | none => rfl
  | some v =>
    rw [hv, Option.elim_some] at h
    have hsize : (g.varnode v).size < UInt32.size := Nat.lt_of_le_of_lt (by omega) h
    rw [Option.elim_some, Option.elim_some, UInt32.toNat_ofNat_of_lt' hsize]
    exact Nat.mod_eq_of_lt h

/-! ## Sweeps -/

namespace Masks

variable {m m' m'' : Masks}

private theorem get_modify (m : Masks) (v : Nat) (f : UInt64 → UInt64) (w : Nat) :
    Masks.get (m.modify v f) w = if w = v ∧ v < m.size then f (m.get v) else m.get w := by
  rw [Masks.get, Array.getElem?_modify]
  by_cases hw : v = w
  · subst hw
    by_cases hv : v < m.size
    · simp [Masks.get, hv]
    · simp [Masks.get, hv]
  · simp [Masks.get, hw, Ne.symm hw]

/-- The second masks hold every bit of the first. -/
structure Le (m m' : Masks) : Prop where
  /-- The number of values is the same. -/
  size : m'.size = m.size
  /-- Every bit of a value is kept. -/
  within : ∀ v, Within (m.get v).toNat (m'.get v)

/-- Masks are compared reflexively. -/
theorem Le.refl (m : Masks) : Le m m := ⟨rfl, fun _ _ h => h⟩

/-- Masks are compared transitively. -/
theorem Le.trans (h : Le m m') (h' : Le m' m'') : Le m m'' :=
  ⟨h'.size.trans h.size, fun v => (h.within v).trans (h'.within v)⟩

/-- Masks that are within each other are equal. -/
theorem Le.antisymm (h : Le m m') (h' : Le m' m) : m = m' := by
  apply Array.ext h.size.symm
  intro v hv hv'
  have hboth := (h.within v).antisymm (h'.within v)
  rwa [Masks.get, Masks.get, Array.getElem?_eq_getElem hv, Array.getElem?_eq_getElem hv'] at hboth

end Masks

namespace Graph

variable {g : Graph} {m : Masks}

/-- Change the mask of the result of an op. -/
def updateResult (f : Masks → Op → VarnodeId → UInt64 → UInt64) (m : Masks) (op : Op) : Masks :=
  op.output.elim m fun out => m.modify out (f m op out)

section Update

variable {f : Masks → Op → VarnodeId → UInt64 → UInt64}

/-- An update of the result of an op touches the mask of that result alone. -/
theorem get_updateResult (m : Masks) (op : Op) (v : Nat) :
    (updateResult f m op).get v =
      if op.output = some v ∧ v < m.size then f m op v (m.get v) else m.get v := by
  rw [updateResult]
  cases op.output with
  | none => simp
  | some out =>
    rw [Option.elim_some, Masks.get_modify]
    by_cases hv : v = out
    · simp [hv]
    · simp [hv, Ne.symm hv]

private theorem size_updateResult (m : Masks) (op : Op) : (updateResult f m op).size = m.size := by
  rw [updateResult]
  cases op.output with
  | none => rfl
  | some out => exact Array.size_modify

/-- The mask of a value that no op writes stays. -/
theorem get_updateResult_foldl {ops : List Op} {v : Nat} (h : ∀ op ∈ ops, op.output ≠ some v)
    (m : Masks) : (ops.foldl (updateResult f) m).get v = m.get v := by
  induction ops generalizing m with
  | nil => rfl
  | cons op rest ih =>
    rw [List.foldl_cons, ih fun op' hop' => h op' (List.mem_cons_of_mem op hop'),
      get_updateResult, if_neg fun hv => h op List.mem_cons_self hv.1]

end Update

/-- A sweep over an op adds the bits of its result. -/
theorem sweepOp_eq (g : Graph) :
    g.sweepOp = updateResult fun m op out mask => mask ||| g.resultMask m.get op out := by
  funext m op
  rw [sweepOp, updateResult]
  cases op.output with
  | none => rfl
  | some out => rfl

/-- A sweep over an op takes no bits away. -/
theorem le_sweepOp (g : Graph) (m : Masks) (op : Op) : m.Le (g.sweepOp m op) := by
  rw [sweepOp_eq]
  refine ⟨size_updateResult m op, fun v => ?_⟩
  rw [get_updateResult]
  split
  · exact within_or_left _ _
  · exact fun _ h => h

/-- A sweep over ops takes no bits away. -/
theorem le_sweepOp_foldl (ops : List Op) (m : Masks) : m.Le (ops.foldl g.sweepOp m) := by
  induction ops generalizing m with
  | nil => exact .refl m
  | cons op rest ih => exact (g.le_sweepOp m op).trans (ih _)

/-- A sweep only adds bits. -/
theorem le_sweep (g : Graph) (m : Masks) : m.Le (g.sweep m) := by
  rw [sweep, ← Array.foldl_toList]
  exact le_sweepOp_foldl _ m

/-- If a sweep changes nothing, none of its ops does. -/
theorem sweepOp_eq_self_of_foldl {ops : List Op} (h : ops.foldl g.sweepOp m = m) :
    ∀ op ∈ ops, g.sweepOp m op = m := by
  induction ops with
  | nil => exact fun op hop => by cases hop
  | cons op rest ih =>
    rw [List.foldl_cons] at h
    have hrest := le_sweepOp_foldl (g := g) rest (g.sweepOp m op)
    rw [h] at hrest
    have hfirst : g.sweepOp m op = m := hrest.antisymm (g.le_sweepOp m op)
    rw [hfirst] at h
    intro op' hop'
    rcases List.mem_cons.mp hop' with rfl | hlater
    · exact hfirst
    · exact ih h op' hlater

/-- The masks hold the bits that each op gives to its result. -/
def Solves (g : Graph) (m : Masks) : Prop :=
  ∀ op ∈ g.ops, ∀ out ∈ op.output, Within (g.resultMask m.get op out).toNat (m.get out)

/-- Masks that a sweep does not change solve the equations of the graph. -/
theorem solves_of_sweep (hout : ∀ op ∈ g.ops, ∀ out ∈ op.output, out < m.size)
    (h : g.sweep m = m) : g.Solves m := by
  intro op hop out hv
  rw [sweep, ← Array.foldl_toList] at h
  have hstep := sweepOp_eq_self_of_foldl h op (Array.mem_toList_iff.mpr hop)
  have hget : (g.sweepOp m op).get out = m.get out ||| g.resultMask m.get op out := by
    rw [sweepOp_eq, get_updateResult, if_pos ⟨hv, hout op hop out hv⟩]
  rw [hstep] at hget
  have hor := within_or_right (m.get out) (g.resultMask m.get op out)
  rwa [← hget] at hor

/-! ## Masks that are given up on -/

/-- The masks after the sweeps are cut off are those of full results. -/
theorem fullMasks_eq (g : Graph) (m : Masks) : g.fullMasks m =
    g.ops.toList.foldl (updateResult fun _ _ out _ => byteMask (g.varnode out).size) m := by
  rw [fullMasks, ← Array.foldl_toList]
  congr 1
  funext m op
  rw [updateResult]
  cases op.output with
  | none => rfl
  | some out => rfl

private theorem get_fill_foldl {ops : List Op} {v : Nat} (h : ∃ op ∈ ops, op.output = some v)
    (hv : v < m.size) :
    (ops.foldl (updateResult fun _ _ out _ => byteMask (g.varnode out).size) m).get v =
      byteMask (g.varnode v).size := by
  induction ops generalizing m with
  | nil =>
    obtain ⟨op, hop, -⟩ := h
    cases hop
  | cons op rest ih =>
    rw [List.foldl_cons]
    by_cases hrest : ∃ op ∈ rest, op.output = some v
    · exact ih hrest (by rw [size_updateResult]; exact hv)
    · obtain ⟨op', hop', hwrites⟩ := h
      rcases List.mem_cons.mp hop' with rfl | hlater
      · rw [get_updateResult_foldl fun op hop hw => hrest ⟨op, hop, hw⟩, get_updateResult,
          if_pos ⟨hwrites, hv⟩]
      · exact absurd ⟨op', hlater, hwrites⟩ hrest

/-- Results have the full masks of their sizes. -/
theorem get_fullMasks {op : Op} (hop : op ∈ g.ops) {v : Nat} (hwrites : op.output = some v)
    (hv : v < m.size) : (g.fullMasks m).get v = byteMask (g.varnode v).size := by
  rw [fullMasks_eq]
  exact get_fill_foldl ⟨op, Array.mem_toList_iff.mpr hop, hwrites⟩ hv

/-- Full masks solve the equations of the graph. -/
theorem solves_fullMasks (hout : ∀ op ∈ g.ops, ∀ out ∈ op.output, out < m.size) :
    g.Solves (g.fullMasks m) := by
  intro op hop out hv i hi
  rw [get_fullMasks hop hv (hout op hop out hv)]
  rw [resultMask, UInt64.toNat_and, Nat.testBit_and, Bool.and_eq_true] at hi
  exact hi.2

/-! ## The computed masks -/

/-- Each value has a mask to start from. -/
theorem size_startMasks (g : Graph) : g.startMasks.size = g.varnodes.size := Array.size_map

/-- Sweeping until nothing changes, or giving up, ends with masks that hold what each op gives to
its result, and keeps the masks of the values that no op writes. -/
theorem settleMasks_spec (sweeps : Nat) (hout : ∀ op ∈ g.ops, ∀ out ∈ op.output, out < m.size) :
    g.Solves (g.settleMasks sweeps m) ∧
      ∀ v, (∀ op ∈ g.ops, op.output ≠ some v) → (g.settleMasks sweeps m).get v = m.get v := by
  induction sweeps generalizing m with
  | zero =>
    refine ⟨solves_fullMasks hout, fun v hv => ?_⟩
    rw [settleMasks, fullMasks_eq]
    exact get_updateResult_foldl (fun op hop => hv op (Array.mem_toList_iff.mp hop)) m
  | succ sweeps ih =>
    rw [settleMasks]
    by_cases h : g.sweep m = m
    · rw [if_pos h]
      exact ⟨solves_of_sweep hout h, fun v _ => rfl⟩
    · rw [if_neg h]
      have hsize := (g.le_sweep m).size
      obtain ⟨hsolves, hkeeps⟩ := ih (m := g.sweep m) fun op hop out hv => by
        rw [hsize]
        exact hout op hop out hv
      refine ⟨hsolves, fun v hv => (hkeeps v hv).trans ?_⟩
      rw [sweep, ← Array.foldl_toList, sweepOp_eq]
      exact get_updateResult_foldl (fun op hop => hv op (Array.mem_toList_iff.mp hop)) m

/-- An op of the graph is at some position. -/
theorem exists_op_of_mem {op : Op} (h : op ∈ g.ops) : ∃ o, g.op o = op := by
  obtain ⟨o, ho⟩ := Array.mem_iff_getElem?.mp h
  exact ⟨o, by rw [Graph.op, ho]; rfl⟩

/-- The results of ops have masks to start from. -/
theorem WellFormed.lt_startMasks (hg : g.WellFormed) :
    ∀ op ∈ g.ops, ∀ out ∈ op.output, out < g.startMasks.size := by
  intro op hop out hout
  obtain ⟨o, rfl⟩ := exists_op_of_mem hop
  rw [size_startMasks]
  exact hg.lt_of_output hout

/-- The computed masks hold what each op gives to its result. -/
theorem WellFormed.solves_masks (hg : g.WellFormed) : g.Solves g.masks :=
  (settleMasks_spec maxSweeps hg.lt_startMasks).1

/-- Written values start without bits, and other values with their own masks. -/
theorem get_startMasks (g : Graph) (v : Nat) :
    g.startMasks.get v = if (g.varnode v).isWritten then 0 else (g.varnode v).mask := by
  by_cases hlt : v < g.varnodes.size
  · have hnode : g.varnode v = g.varnodes[v] := by simp [varnode, hlt]
    rw [hnode]
    simp [startMasks, Masks.get, hlt]
  · rw [varnode_of_le (Nat.le_of_not_lt hlt)]
    simp only [startMasks, Masks.get, Array.getElem?_map,
      Array.getElem?_eq_none (Nat.le_of_not_lt hlt)]
    rfl

/-- No op has a value as its result that is not written. -/
theorem WellFormed.output_ne_of_unwritten (hg : g.WellFormed) {v : Nat}
    (hv : (g.varnode v).isWritten = false) : ∀ op ∈ g.ops, op.output ≠ some v := by
  intro op hop hwrites
  obtain ⟨o, rfl⟩ := exists_op_of_mem hop
  rw [Varnode.isWritten, (hg.writes o v).mp hwrites] at hv
  cases hv

/-- Values that no op writes keep their masks. -/
theorem WellFormed.masks_of_unwritten (hg : g.WellFormed) {v : Nat}
    (hv : (g.varnode v).isWritten = false) : g.masks.get v = (g.varnode v).mask := by
  rw [masks, (settleMasks_spec maxSweeps hg.lt_startMasks).2 v (hg.output_ne_of_unwritten hv),
    get_startMasks, hv]
  rfl

/-- The masks that are installed are those that were computed. -/
theorem WellFormed.mask_computeMasks (hg : g.WellFormed) (v : Nat) :
    (g.computeMasks.varnode v).mask = g.masks.get v := by
  by_cases hlt : v < g.varnodes.size
  · simp [computeMasks, varnode, hlt]
  · have hnode := varnode_of_le (Nat.le_of_not_lt hlt)
    rw [hg.masks_of_unwritten (by rw [hnode]; rfl), hnode, varnode_of_le]
    simpa [computeMasks] using Nat.le_of_not_lt hlt

end Graph

end TypeRecovery
