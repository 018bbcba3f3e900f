import Mathlib.Data.Finite.Prod
import Mathlib.Data.Fintype.EquivFin
import TypeRecovery.Proofs.Graph.Execution

/-!
# Least masks

The mask of a result has to be what its op gives it from the masks of its operands. These equations
have a least solution, since an op gives no fewer bits if its operands have more. Sweeps start below
every solution and never leave it, so a sweep that changes nothing has found the least one, whatever
the order of the ops. The other outcome is that the sweeps give up, and then every result has the
full mask of its size.
-/

namespace TypeRecovery

/-! ## Words with more bits -/

section Bits

variable {a b c d : UInt64} {i : Nat}

/-- A word has 64 bits. -/
theorem lt_of_testBit (h : a.toNat.testBit i = true) : i < 64 := by
  apply Nat.lt_of_not_le
  intro hi
  have hlt : a.toNat < 2 ^ i := Nat.lt_of_lt_of_le a.toNat_lt (Nat.pow_le_pow_right (by decide) hi)
  rw [Nat.testBit_lt_two_pow hlt] at h
  cases h

/-- A word is within itself. -/
theorem Within.refl (a : UInt64) : Within a.toNat a := fun _ h => h

/-- Unions of bits are monotone. -/
theorem Within.or (h : Within a.toNat c) (h' : Within b.toNat d) :
    Within (a ||| b).toNat (c ||| d) := by
  intro i hi
  rw [UInt64.toNat_or, Nat.testBit_or, Bool.or_eq_true] at hi ⊢
  exact hi.imp (h i) (h' i)

/-- Intersections of bits are monotone. -/
theorem Within.and (h : Within a.toNat c) (h' : Within b.toNat d) :
    Within (a &&& b).toNat (c &&& d) := by
  intro i hi
  rw [UInt64.toNat_and, Nat.testBit_and, Bool.and_eq_true] at hi ⊢
  exact ⟨h i hi.1, h' i hi.2⟩

/-- Shifting left is monotone. -/
theorem Within.shiftLeft (h : Within a.toNat b) (amount : Nat) :
    Within (TypeRecovery.shiftLeft a amount).toNat (TypeRecovery.shiftLeft b amount) := by
  intro i hi
  have hlt := lt_of_testBit hi
  rw [testBit_shiftLeft _ hlt, Bool.and_eq_true] at hi ⊢
  exact ⟨hi.1, h _ hi.2⟩

/-- Shifting right is monotone. -/
theorem Within.shiftRight (h : Within a.toNat b) (amount : Nat) :
    Within (TypeRecovery.shiftRight a amount).toNat (TypeRecovery.shiftRight b amount) := by
  intro i hi
  rw [testBit_shiftRight] at hi ⊢
  exact h _ hi

private theorem Within.ite {P : Prop} [Decidable P] (h : Within a.toNat b) :
    Within (if P then a else c).toNat (if P then b else c) := by
  split
  · exact h
  · exact .refl c

end Bits

/-- A value without its links to ops. -/
def Varnode.unlinked (node : Varnode) : Varnode :=
  { node with definition := none, readers := [] }

namespace Graph

variable {g g' : Graph} {m : Masks} {mask mask' : VarnodeId → UInt64} {op : Op}

/-! ## What an op gives to its result -/

section Monotone

variable (h : ∀ v ∈ op.inputs, Within (mask v).toNat (mask' v))

include h

private theorem within_operandMask (index : Nat) :
    Within (operandMask mask op index).toNat (operandMask mask' op index) := by
  rw [operandMask, operandMask]
  cases hv : op.input? index with
  | none => exact .refl allBits
  | some v => exact h v (mem_inputs_of_input? hv)

private theorem within_foldl_operands :
    Within (op.inputs.foldl (fun acc v => acc ||| mask v) 0).toNat
      (op.inputs.foldl (fun acc v => acc ||| mask' v) 0) := by
  suffices hfold : ∀ (l : List VarnodeId) (acc acc' : UInt64), (∀ v ∈ l, v ∈ op.inputs) →
      Within acc.toNat acc' → Within (l.foldl (fun acc v => acc ||| mask v) acc).toNat
        (l.foldl (fun acc v => acc ||| mask' v) acc') from
    hfold op.inputs 0 0 (fun _ hv => hv) (.refl 0)
  intro l
  induction l with
  | nil => exact fun _ _ _ hacc => hacc
  | cons v rest ih =>
    intro acc acc' hmem hacc
    exact ih _ _ (fun w hw => hmem w (List.mem_cons_of_mem v hw))
      (hacc.or (h v (hmem v List.mem_cons_self)))

/-- If the operands have more bits, so has the result. -/
theorem within_opMask (g : Graph) : Within (g.opMask mask op).toNat (g.opMask mask' op) := by
  have hoperand := within_operandMask h
  have hoperands := within_foldl_operands h
  rw [opMask, opMask]
  split
  · exact .refl 1
  · cases op.opcode with
    | copy => exact hoperand 0
    | intZext => exact hoperand 0
    | multiEqual => exact hoperands
    | intOr => exact hoperands
    | intXor => exact hoperands
    | intAnd => exact (hoperand 0).and (hoperand 1)
    | piece => exact ((hoperand 0).shiftLeft _).or (hoperand 1)
    | subpiece =>
      cases g.constant? op 1 with
      | none => exact .refl allBits
      | some c => exact ((hoperand 0).shiftRight _).ite
    | intLeft =>
      cases g.constant? op 1 with
      | none => exact .refl allBits
      | some c => exact ((hoperand 0).shiftLeft _).ite
    | intRight =>
      cases g.constant? op 1 with
      | none => exact .refl allBits
      | some c => exact ((hoperand 0).shiftRight _).ite
    | _ => exact .refl allBits

/-- The mask of a result is monotone in the masks of the operands. -/
theorem within_resultMask (g : Graph) (out : VarnodeId) :
    Within (g.resultMask mask op out).toNat (g.resultMask mask' op out) :=
  (within_opMask h g).and (.refl _)

end Monotone

/-! ## The equations -/

/-- The masks of unwritten values are the given ones, and the mask of a result is what its op gives
it. -/
structure Solution (g : Graph) (mask : VarnodeId → UInt64) : Prop where
  /-- Values that no op writes keep their masks. -/
  unwritten : ∀ v, (g.varnode v).isWritten = false → mask v = (g.varnode v).mask
  /-- A result has the bits that its op gives it, and no others. -/
  result : ∀ op ∈ g.ops, ∀ out ∈ op.output, mask out = g.resultMask mask op out

/-- A solution that every other one contains. -/
structure LeastSolution (g : Graph) (mask : VarnodeId → UInt64) : Prop extends
    g.Solution mask where
  /-- Every bit is in all solutions. -/
  least : ∀ mask', g.Solution mask' → ∀ v, Within (mask v).toNat (mask' v)

/-- There is only one least solution. -/
theorem LeastSolution.unique (h : g.LeastSolution mask) (h' : g.LeastSolution mask') :
    mask' = mask :=
  funext fun v => (h'.least mask h.toSolution v).antisymm (h.least mask' h'.toSolution v)

/-! ## Sweeps -/

/-- The masks after a number of sweeps. -/
def sweeps (g : Graph) : Nat → Masks
  | 0 => g.startMasks
  | k + 1 => g.sweep (g.sweeps k)

private theorem le_sweeps (g : Graph) {j k : Nat} (h : j ≤ k) : (g.sweeps j).Le (g.sweeps k) := by
  induction h with
  | refl => exact .refl _
  | step _ ih => exact ih.trans (g.le_sweep _)

/-- A sweep keeps the number of masks. -/
theorem size_sweeps (g : Graph) (k : Nat) : (g.sweeps k).size = g.varnodes.size :=
  (g.le_sweeps (Nat.zero_le k)).size.trans g.size_startMasks

/-- Sweeps leave the masks of values that no op writes alone. -/
theorem WellFormed.get_sweeps_of_unwritten (hg : g.WellFormed) {v : Nat}
    (hv : (g.varnode v).isWritten = false) (k : Nat) :
    (g.sweeps k).get v = (g.varnode v).mask := by
  induction k with
  | zero =>
    rw [sweeps, get_startMasks, hv]
    rfl
  | succ k ih =>
    rw [sweeps, sweep, ← Array.foldl_toList, sweepOp_eq, get_updateResult_foldl, ih]
    exact fun op hop => hg.output_ne_of_unwritten hv op (Array.mem_toList_iff.mp hop)

/-- What a sweep keeps if each of its ops does. -/
theorem sweep_induction {P : Masks → Prop} (hstep : ∀ m, ∀ op ∈ g.ops, P m → P (g.sweepOp m op))
    (h : P m) : P (g.sweep m) := by
  rw [sweep, ← Array.foldl_toList]
  exact List.foldlRecOn (motive := P) _ _ h fun m hm op hop =>
    hstep m op (Array.mem_toList_iff.mp hop) hm

/-- A sweep does not leave a solution that it started within. -/
theorem Solution.within_sweepOp (hmask : g.Solution mask) {op : Op} (hop : op ∈ g.ops)
    (h : ∀ v, Within (m.get v).toNat (mask v)) (v : Nat) :
    Within ((g.sweepOp m op).get v).toNat (mask v) := by
  rw [sweepOp_eq, get_updateResult]
  split
  · rename_i hv
    rw [hmask.result op hop v hv.1]
    have hold := h v
    rw [hmask.result op hop v hv.1] at hold
    intro i hi
    rw [UInt64.toNat_or, Nat.testBit_or, Bool.or_eq_true] at hi
    exact hi.elim (hold i) (within_resultMask (fun w _ => h w) g v i)
  · exact h v

/-- Sweeps stay within every solution. -/
theorem Solution.within_sweeps (hmask : g.Solution mask) (k v : Nat) :
    Within ((g.sweeps k).get v).toNat (mask v) := by
  induction k generalizing v with
  | zero =>
    rw [sweeps, get_startMasks]
    split
    · intro i hi
      simp at hi
    · rename_i hv
      rw [hmask.unwritten v (Bool.eq_false_iff.mpr hv)]
      exact .refl _
  | succ k ih =>
    exact sweep_induction (P := fun m => ∀ v, Within (m.get v).toNat (mask v))
      (fun m op hop h => hmask.within_sweepOp hop h) ih v

/-- No result has a bit that its op would not give it. -/
def Rising (g : Graph) (m : Masks) : Prop :=
  ∀ op ∈ g.ops, ∀ out ∈ op.output, Within (m.get out).toNat (g.resultMask m.get op out)

/-- A value has one writer. -/
theorem WellFormed.writer_unique (hg : g.WellFormed) {o o' v : Nat}
    (h : (g.op o).output = some v) (h' : (g.op o').output = some v) : o' = o :=
  Option.some.inj (((hg.writes o' v).mp h').symm.trans ((hg.writes o v).mp h))

private theorem WellFormed.op_unique (hg : g.WellFormed) {op' : Op} (hop : op ∈ g.ops)
    (hop' : op' ∈ g.ops) {v : Nat} (hv : op.output = some v) (hv' : op'.output = some v) :
    op' = op := by
  obtain ⟨o, rfl⟩ := exists_op_of_mem hop
  obtain ⟨o', rfl⟩ := exists_op_of_mem hop'
  rw [hg.writer_unique hv hv']

private theorem WellFormed.rising_sweepOp (hg : g.WellFormed) (h : g.Rising m) (hop : op ∈ g.ops) :
    g.Rising (g.sweepOp m op) := by
  have hle := g.le_sweepOp m op
  intro op' hop' out hout
  have hbefore : Within ((g.sweepOp m op).get out).toNat (g.resultMask m.get op' out) := by
    rw [sweepOp_eq, get_updateResult]
    split
    · -- the op that is swept is the one that writes this value
      rename_i hwrites
      obtain rfl := hg.op_unique hop hop' hwrites.1 hout
      intro i hi
      rw [UInt64.toNat_or, Nat.testBit_or, Bool.or_eq_true] at hi
      exact hi.elim (h op' hop' out hout i) id
    · exact h op' hop' out hout
  exact hbefore.trans (within_resultMask (fun v _ => hle.within v) g out)

/-- Sweeps never take bits away. -/
theorem WellFormed.rising_sweeps (hg : g.WellFormed) (k : Nat) : g.Rising (g.sweeps k) := by
  induction k with
  | zero =>
    intro op hop out hout i hi
    obtain ⟨o, rfl⟩ := exists_op_of_mem hop
    have hwritten : (g.varnode out).isWritten = true := by
      rw [Varnode.isWritten, (hg.writes o out).mp hout]
      rfl
    rw [sweeps, get_startMasks, hwritten] at hi
    simp at hi
  | succ k ih => exact sweep_induction (fun m op hop h => hg.rising_sweepOp h hop) ih

/-- A sweep that changes nothing has found the least solution. -/
theorem WellFormed.leastSolution_sweeps (hg : g.WellFormed) {k : Nat}
    (h : g.sweeps (k + 1) = g.sweeps k) : g.LeastSolution (g.sweeps k).get := by
  have hsolves : g.Solves (g.sweeps k) := by
    refine solves_of_sweep (fun op hop out hout => ?_) h
    rw [size_sweeps, ← size_startMasks]
    exact hg.lt_startMasks op hop out hout
  refine ⟨⟨fun v hv => hg.get_sweeps_of_unwritten hv k, fun op hop out hout => ?_⟩,
    fun mask' hmask' => hmask'.within_sweeps k⟩
  exact (hg.rising_sweeps k op hop out hout).antisymm (hsolves op hop out hout)

/-- Sweeps settle in the end: they only add bits, and there are finitely many. -/
theorem exists_sweeps_eq (g : Graph) : ∃ k, g.sweeps (k + 1) = g.sweeps k := by
  by_contra hnever
  push Not at hnever
  let bits (k : Nat) : Fin g.varnodes.size → Fin UInt64.size := fun v => ((g.sweeps k).get v).toFin
  apply not_injective_infinite_finite bits
  have hdistinct {j k : Nat} (hlt : j < k) : bits j ≠ bits k := by
    intro hsame
    apply hnever j
    refine Masks.Le.antisymm ?_ (g.le_sweep _)
    have hback : (g.sweeps k).Le (g.sweeps j) := by
      refine ⟨by rw [size_sweeps, size_sweeps], fun v => ?_⟩
      by_cases hv : v < g.varnodes.size
      · have hword := congrFun hsame ⟨v, hv⟩
        rw [UInt64.toFin_inj.mp hword]
        exact .refl _
      · rw [Masks.get, Array.getElem?_eq_none (by rw [size_sweeps]; exact Nat.le_of_not_lt hv)]
        intro i hi
        simp at hi
    exact (g.le_sweeps hlt).trans hback
  intro j k hsame
  rcases Nat.lt_trichotomy j k with hlt | heq | hlt
  · exact absurd hsame (hdistinct hlt)
  · exact heq
  · exact absurd hsame.symm (hdistinct hlt)

/-- The masks that sweeps come to are the least solution. -/
theorem WellFormed.exists_leastSolution (hg : g.WellFormed) : ∃ least, g.LeastSolution least := by
  obtain ⟨k, hk⟩ := g.exists_sweeps_eq
  exact ⟨_, hg.leastSolution_sweeps hk⟩

/-! ## The two outcomes -/

/-- A number of sweeps stops at the first one that changes nothing, or each of them changes
something and they give up. -/
theorem settleMasks_cases (g : Graph) (n k : Nat) :
    (∃ j, j < k + n ∧ g.sweeps (j + 1) = g.sweeps j ∧
        g.settleMasks n (g.sweeps k) = g.sweeps j) ∨
      (∀ j, k ≤ j → j < k + n → g.sweeps (j + 1) ≠ g.sweeps j) ∧
        g.settleMasks n (g.sweeps k) = g.fullMasks (g.sweeps (k + n)) := by
  induction n generalizing k with
  | zero =>
    refine Or.inr ⟨fun j hle hlt => ?_, rfl⟩
    omega
  | succ n ih =>
    rw [settleMasks]
    by_cases hsame : g.sweep (g.sweeps k) = g.sweeps k
    · rw [if_pos hsame]
      exact Or.inl ⟨k, by omega, hsame, rfl⟩
    · rw [if_neg hsame, ← Nat.add_assoc, Nat.add_right_comm]
      rcases ih (k + 1) with ⟨j, hj, hstays, hmasks⟩ | ⟨hchanges, hmasks⟩
      · exact Or.inl ⟨j, hj, hstays, hmasks⟩
      · refine Or.inr ⟨fun j hle hlt => ?_, hmasks⟩
        rcases Nat.eq_or_lt_of_le hle with rfl | hlater
        · exact hsame
        · exact hchanges j hlater hlt

/-- The installed masks. -/
def installed (g : Graph) (v : VarnodeId) : UInt64 := (g.computeMasks.varnode v).mask

/-- Every result has the full mask of its size. -/
def Full (g : Graph) (mask : VarnodeId → UInt64) : Prop :=
  ∀ v, (g.varnode v).isWritten = true → mask v = byteMask (g.varnode v).size

/-- An op with a result is an op of the graph. -/
theorem mem_ops_of_output {o v : Nat} (h : (g.op o).output = some v) : g.op o ∈ g.ops := by
  rcases g.op_mem_or o with hmem | hnone
  · exact hmem
  · rw [hnone] at h
    cases h

private theorem WellFormed.exists_op_of_written (hg : g.WellFormed) {v : Nat}
    (hv : (g.varnode v).isWritten = true) : ∃ op ∈ g.ops, op.output = some v := by
  obtain ⟨o, ho⟩ := Option.isSome_iff_exists.mp hv
  have hwrites := (hg.writes o v).mpr ho
  exact ⟨_, mem_ops_of_output hwrites, hwrites⟩

/-- What is installed are the masks that the sweeps end with. -/
theorem WellFormed.installed_eq (hg : g.WellFormed) : g.installed = g.masks.get :=
  funext hg.mask_computeMasks

/-- The masks are those of a sweep that changes nothing, or each sweep changed something and all
results have full masks. -/
theorem WellFormed.installed_cases (hg : g.WellFormed) :
    (∃ k < maxSweeps, g.sweeps (k + 1) = g.sweeps k ∧ g.installed = (g.sweeps k).get) ∨
      (∀ k < maxSweeps, g.sweeps (k + 1) ≠ g.sweeps k) ∧ g.Full g.installed := by
  rw [hg.installed_eq, masks]
  rcases g.settleMasks_cases maxSweeps 0 with ⟨k, hk, hstays, hmasks⟩ | ⟨hchanges, hmasks⟩
  · exact Or.inl ⟨k, by omega, hstays, congrArg Masks.get hmasks⟩
  · refine Or.inr ⟨fun k hk => hchanges k (Nat.zero_le k) (by omega), fun v hv => ?_⟩
    obtain ⟨op, hop, hwrites⟩ := hg.exists_op_of_written hv
    rw [show g.settleMasks maxSweeps g.startMasks = _ from hmasks]
    refine get_fullMasks hop hwrites ?_
    rw [size_sweeps, ← size_startMasks]
    exact hg.lt_startMasks op hop v hwrites

/-- The sweeps end at the least solution, or they are cut off and every mask is full. -/
theorem WellFormed.installed_least_or_full (hg : g.WellFormed) {least : VarnodeId → UInt64}
    (hleast : g.LeastSolution least) : g.installed = least ∨ g.Full g.installed := by
  rcases hg.installed_cases with ⟨k, -, hstays, hmasks⟩ | ⟨-, hfull⟩
  · exact Or.inl (hmasks.trans (hleast.unique (hg.leastSolution_sweeps hstays)))
  · exact Or.inr hfull

/-- What is installed contains every solution's common part. -/
theorem WellFormed.within_installed (hg : g.WellFormed) {least : VarnodeId → UInt64}
    (hleast : g.LeastSolution least) (v : Nat) : Within (least v).toNat (g.installed v) := by
  rcases hg.installed_least_or_full hleast with hsame | hfull
  · rw [hsame]
    exact .refl _
  · cases hv : (g.varnode v).isWritten with
    | false =>
      rw [hg.installed_eq, hg.masks_of_unwritten hv, hleast.unwritten v hv]
      exact .refl _
    | true =>
      obtain ⟨op, hop, hwrites⟩ := hg.exists_op_of_written hv
      rw [hfull v hv, hleast.result op hop v hwrites, resultMask]
      intro i hi
      rw [UInt64.toNat_and, Nat.testBit_and, Bool.and_eq_true] at hi
      exact hi.2

/-! ## The order of the ops -/

/-- The second graph has the values of the first, and the same ops in any order. -/
structure Reorders (g g' : Graph) : Prop where
  /-- The ops are the same. -/
  ops : g'.ops.toList.Perm g.ops.toList
  /-- The values are the same but for their links to ops. -/
  values : ∀ v, (g'.varnode v).unlinked = (g.varnode v).unlinked

namespace Reorders

variable (h : g.Reorders g')

include h

private theorem mem_ops : op ∈ g'.ops ↔ op ∈ g.ops := by
  rw [← Array.mem_toList_iff, h.ops.mem_iff, Array.mem_toList_iff]

/-- What a value has beside its links is the same. -/
theorem part_eq {α : Type} (part : Varnode → α) (hpart : ∀ node, part node.unlinked = part node)
    (v : Nat) : part (g'.varnode v) = part (g.varnode v) := by
  rw [← hpart, h.values, hpart]

/-- Sizes of values are the same. -/
theorem size_eq (v : Nat) : (g'.varnode v).size = (g.varnode v).size :=
  h.part_eq Varnode.size (fun _ => rfl) v

/-- Constant operands are the same. -/
theorem constant? (op : Op) (index : Nat) :
    (g'.constant? op index).map (·.address.offset) =
      (g.constant? op index).map (·.address.offset) := by
  rw [Graph.constant?, Graph.constant?]
  cases op.input? index with
  | none => rfl
  | some v =>
    dsimp only
    rw [h.part_eq Varnode.constant fun _ => rfl]
    split
    · exact congrArg some (h.part_eq (·.address.offset) (fun _ => rfl) v)
    · rfl

/-- The same values are written. -/
theorem isWritten (hg : g.WellFormed) (hg' : g'.WellFormed) (v : Nat) :
    (g'.varnode v).isWritten = (g.varnode v).isWritten := by
  rw [Bool.eq_iff_iff]
  constructor
  · intro hv
    obtain ⟨op, hop, hwrites⟩ := hg'.exists_op_of_written hv
    by_contra hnot
    exact hg.output_ne_of_unwritten (Bool.eq_false_iff.mpr hnot) op (h.mem_ops.mp hop) hwrites
  · intro hv
    obtain ⟨op, hop, hwrites⟩ := hg.exists_op_of_written hv
    by_contra hnot
    exact hg'.output_ne_of_unwritten (Bool.eq_false_iff.mpr hnot) op (h.mem_ops.mpr hop) hwrites

/-- The number of bits of the low part of a piece is the same. -/
theorem lowBits (op : Op) : g'.lowBits op = g.lowBits op := by
  simp only [Graph.lowBits, h.size_eq]

/-- The mask that an op computes is the same. -/
theorem opMask (mask : VarnodeId → UInt64) (op : Op) : g'.opMask mask op = g.opMask mask op := by
  have hconstant := h.constant? op 1
  rw [Graph.opMask, Graph.opMask]
  simp only [h.lowBits]
  cases hc : g.constant? op 1 with
  | none =>
    rw [hc, Option.map_none, Option.map_eq_none_iff] at hconstant
    rw [hconstant]
  | some c =>
    rw [hc, Option.map_some] at hconstant
    obtain ⟨c', hc', hoffset⟩ := Option.map_eq_some_iff.mp hconstant
    rw [hc']
    simp only [hoffset]

/-- The mask of a result is the same. -/
theorem resultMask (mask : VarnodeId → UInt64) (op : Op) (out : VarnodeId) :
    g'.resultMask mask op out = g.resultMask mask op out := by
  rw [Graph.resultMask, Graph.resultMask, h.opMask, h.size_eq]

private theorem solution_iff (hg : g.WellFormed) (hg' : g'.WellFormed) {mask : VarnodeId → UInt64} :
    g'.Solution mask ↔ g.Solution mask := by
  have hunwritten (v : Nat) := h.isWritten hg hg' v
  constructor
  · intro hmask
    refine ⟨fun v hv => ?_, fun op hop out hout => ?_⟩
    · rw [hmask.unwritten v ((hunwritten v).trans hv), h.part_eq Varnode.mask fun _ => rfl]
    · rw [hmask.result op (h.mem_ops.mpr hop) out hout, h.resultMask]
  · intro hmask
    refine ⟨fun v hv => ?_, fun op hop out hout => ?_⟩
    · rw [hmask.unwritten v ((hunwritten v).symm.trans hv),
        h.part_eq Varnode.mask fun _ => rfl]
    · rw [hmask.result op (h.mem_ops.mp hop) out hout, h.resultMask]

/-- A least solution stays one when the graph is labelled anew. -/
theorem leastSolution (hg : g.WellFormed) (hg' : g'.WellFormed) {mask : VarnodeId → UInt64}
    (hmask : g.LeastSolution mask) : g'.LeastSolution mask :=
  ⟨(h.solution_iff hg hg').mpr hmask.toSolution,
    fun mask' hmask' => hmask.least mask' ((h.solution_iff hg hg').mp hmask')⟩

end Reorders

/-- The masks of results are the least solution of the mask equations, or each of them is the full
mask of its size. In both cases they contain the least solution and what each op gives to its
result, and unwritten values keep their masks. The least solution does not depend on the order of
the ops. -/
theorem WellFormed.installed_spec (hg : g.WellFormed) : ∃ least, g.LeastSolution least ∧
    (g.installed = least ∨ g.Full g.installed) ∧
    (∀ v, Within (least v).toNat (g.installed v)) ∧
    (∀ op ∈ g.ops, ∀ out ∈ op.output,
      Within (g.resultMask g.installed op out).toNat (g.installed out)) ∧
    (∀ v, (g.varnode v).isWritten = false → g.installed v = (g.varnode v).mask) ∧
    ∀ g' : Graph, g'.WellFormed → g.Reorders g' → g'.LeastSolution least ∧
      (g'.installed = least ∨ g'.Full g'.installed) := by
  obtain ⟨least, hleast⟩ := hg.exists_leastSolution
  refine ⟨least, hleast, hg.installed_least_or_full hleast, hg.within_installed hleast, ?_, ?_, ?_⟩
  · rw [hg.installed_eq]
    exact hg.solves_masks
  · intro v hv
    rw [hg.installed_eq, hg.masks_of_unwritten hv]
  · intro g' hg' hreorders
    have hleast' := hreorders.leastSolution hg hg' hleast
    exact ⟨hleast', hg'.installed_least_or_full hleast'⟩

/-- The loop with its shift created before its merge. -/
def loopedBackward : Graph :=
  let values := (Routine.empty "f" .simple 2 (TypeTable.empty 8)).newInput 2 ⟨1, 0⟩
    |>.newConstant 8 8 |>.newVarnode 4 ⟨1, 8⟩ |>.newVarnode 4 ⟨1, 12⟩
  (values.graph.setMask 0 0xf0).linkOp
      { opcode := .intLeft, address := ⟨1, 1⟩, inputs := [2, 1], output := some 3 }
    |>.linkOp { opcode := .multiEqual, address := ⟨1, 0⟩, inputs := [0, 3], output := some 2 }

/-- Both orders of the loop settle, at the same masks. -/
theorem looped_installed_spec : ∃ least, looped.LeastSolution least ∧ least 2 = 0xf0f0f0f0 ∧
    looped.installed = least ∧ loopedBackward.installed = least := by
  have hg : looped.WellFormed := by decide +kernel
  have hg' : loopedBackward.WellFormed := by decide +kernel
  have hreorders : looped.Reorders loopedBackward := by
    refine ⟨by decide +kernel, fun v => ?_⟩
    rcases Nat.lt_or_ge v 4 with hv | hv
    · have hvalues : ∀ v < 4,
          (loopedBackward.varnode v).unlinked = (looped.varnode v).unlinked := by decide +kernel
      exact hvalues v hv
    · rw [varnode_of_le (show looped.varnodes.size ≤ v from hv),
        varnode_of_le (show loopedBackward.varnodes.size ≤ v from hv)]
  obtain ⟨least, hleast, houtcome, -, -, -, hreordered⟩ := hg.installed_spec
  have hsettled : looped.installed = least :=
    houtcome.resolve_right fun hfull => absurd (hfull 2 (by decide +kernel)) (by decide +kernel)
  have hsettled' : loopedBackward.installed = least :=
    (hreordered _ hg' hreorders).2.resolve_right fun hfull =>
      absurd (hfull 2 (by decide +kernel)) (by decide +kernel)
  refine ⟨least, hleast, ?_, hsettled, hsettled'⟩
  rw [← hsettled]
  decide +kernel

end Graph

end TypeRecovery
