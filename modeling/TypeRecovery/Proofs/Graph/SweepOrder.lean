import Mathlib.Data.List.Perm.Subperm
import Mathlib.Logic.Relation
import TypeRecovery.Proofs.Graph.LeastMask

/-!
# Sweeps and the order of the ops

A sweep sees what it has changed itself only if the writer of an operand was created before its
reader. A step of the data flow in the other direction takes another sweep. So the number of sweeps
that a bit needs is one more than the number of such steps on its way, a long chain of them outlasts
the sweeps, and the sweeps give up on some graphs without cycles as well.
-/

namespace TypeRecovery
namespace Graph

variable {g : Graph} {m : Masks} {o o' v out i k n : Nat}

/-! ## One sweep -/

/-- The value is written by an op that is not created before the given one. -/
def WrittenLate (g : Graph) (o : OpId) (v : VarnodeId) : Prop :=
  ∃ o', (g.op o').output = some v ∧ o ≤ o'

/-- The ops of a sweep from a given one on. -/
theorem exists_le_of_mem_drop {op : Op} (h : op ∈ g.ops.toList.drop o) :
    ∃ o', o ≤ o' ∧ g.op o' = op := by
  obtain ⟨index, hindex⟩ := List.mem_iff_getElem?.mp h
  rw [List.getElem?_drop, Array.getElem?_toList] at hindex
  exact ⟨o + index, Nat.le_add_right o index, by rw [Graph.op, hindex]; rfl⟩

/-- The ops of a sweep before a given one. -/
theorem exists_lt_of_mem_take {op : Op} (h : op ∈ g.ops.toList.take o) :
    ∃ o', o' < o ∧ g.op o' = op := by
  obtain ⟨index, hindex⟩ := List.mem_iff_getElem?.mp h
  rw [List.getElem?_take] at hindex
  split at hindex
  · rename_i hlt
    rw [Array.getElem?_toList] at hindex
    exact ⟨index, hlt, by rw [Graph.op, hindex]; rfl⟩
  · cases hindex

/-- The masks in a sweep before the turn of an op. -/
def masksBefore (g : Graph) (m : Masks) (o : OpId) : Masks :=
  (g.ops.toList.take o).foldl g.sweepOp m

/-- A sweep goes on with the ops that it has not reached. -/
theorem sweep_eq_foldl_drop (g : Graph) (m : Masks) (o : OpId) :
    g.sweep m = (g.ops.toList.drop o).foldl g.sweepOp (g.masksBefore m o) := by
  rw [sweep, masksBefore, ← Array.foldl_toList, ← List.foldl_append, List.take_append_drop]

/-- What earlier ops write, and what no op writes, has its new mask. -/
theorem get_masksBefore_of_early (h : ¬g.WrittenLate o v) :
    (g.masksBefore m o).get v = (g.sweep m).get v := by
  rw [sweep_eq_foldl_drop g m o, sweepOp_eq, get_updateResult_foldl]
  intro op hop hwrites
  obtain ⟨o', ho', rfl⟩ := exists_le_of_mem_drop hop
  exact h ⟨o', hwrites, ho'⟩

/-- What later ops write has its old mask. -/
theorem WellFormed.get_masksBefore_of_late (hg : g.WellFormed) (h : g.WrittenLate o v) :
    (g.masksBefore m o).get v = m.get v := by
  obtain ⟨late, hlate, hle⟩ := h
  rw [masksBefore, sweepOp_eq, get_updateResult_foldl]
  intro op hop hwrites
  obtain ⟨early, hlt, rfl⟩ := exists_lt_of_mem_take hop
  rw [hg.writer_unique hlate hwrites] at hlt
  exact Nat.not_lt_of_le hle hlt

/-- A sweep adds to a result what its op gives it from the masks before its turn. -/
theorem WellFormed.get_sweep (hg : g.WellFormed) (hsize : m.size = g.varnodes.size)
    (hout : (g.op o).output = some out) :
    (g.sweep m).get out = m.get out ||| g.resultMask (g.masksBefore m o).get (g.op o) out := by
  have hlt := lt_size_of_output hout
  have hdrop : g.ops.toList.drop o = g.op o :: g.ops.toList.drop (o + 1) := by
    rw [List.drop_eq_getElem_cons (by simpa using hlt), Graph.op, Array.getElem?_eq_getElem hlt]
    rfl
  have hbound : out < (g.masksBefore m o).size := by
    rw [masksBefore, (le_sweepOp_foldl (g := g) _ m).size, hsize]
    exact hg.lt_of_output hout
  rw [sweep_eq_foldl_drop g m o, hdrop, List.foldl_cons, sweepOp_eq, get_updateResult_foldl,
    get_updateResult, if_pos ⟨hout, hbound⟩,
    hg.get_masksBefore_of_late ⟨o, hout, Nat.le_refl o⟩]
  intro op hop hwrites
  obtain ⟨late, hle, rfl⟩ := exists_le_of_mem_drop hop
  rw [hg.writer_unique hout hwrites] at hle
  exact Nat.not_succ_le_self o hle

/-! ## When a bit arrives -/

/-- The bit reaches the value within a number of sweeps. Within one sweep it goes through ops in
the order of their creation. -/
inductive ArrivesBy (g : Graph) : (sweeps : Nat) → VarnodeId → (bit : Nat) → Prop where
  /-- Bits of unwritten values are there from the start. -/
  | given {k v i : Nat} (hv : (g.varnode v).isWritten = false)
      (hi : (g.varnode v).mask.toNat.testBit i = true) : ArrivesBy g k v i
  /-- An op gives a bit to its result from bits of its operands. Those that are written late have
  to be there one sweep before. -/
  | result {k o out i : Nat} {mask : VarnodeId → UInt64} (hout : (g.op o).output = some out)
      (hi : (g.resultMask mask (g.op o) out).toNat.testBit i = true)
      (hearly : ∀ v ∈ (g.op o).inputs, ¬g.WrittenLate o v →
        ∀ j, (mask v).toNat.testBit j = true → ArrivesBy g (k + 1) v j)
      (hlate : ∀ v ∈ (g.op o).inputs, g.WrittenLate o v →
        ∀ j, (mask v).toNat.testBit j = true → ArrivesBy g k v j) : ArrivesBy g (k + 1) out i

/-- A bit that arrives by a sweep arrives by each later one. -/
theorem ArrivesBy.mono (h : g.ArrivesBy k v i) : ∀ {n}, k ≤ n → g.ArrivesBy n v i := by
  induction h with
  | given hv hi => exact fun _ => .given hv hi
  | result hout hi _ _ ihearly ihlate =>
    intro n hle
    cases n with
    | zero => cases hle
    | succ n =>
      exact .result hout hi (fun v hv hearly j hj => ihearly v hv hearly j hj hle)
        fun v hv hlate j hj => ihlate v hv hlate j hj (Nat.le_of_succ_le_succ hle)

/-- A bit that arrives by a sweep is set in the mask after that sweep. -/
theorem ArrivesBy.testBit_sweeps (hg : g.WellFormed) (h : g.ArrivesBy k v i) :
    ((g.sweeps k).get v).toNat.testBit i = true := by
  induction h with
  | given hv hi => rwa [hg.get_sweeps_of_unwritten hv]
  | @result k o out i mask hout hi _ _ ihearly ihlate =>
    rw [sweeps, hg.get_sweep (g.size_sweeps k) hout, UInt64.toNat_or, Nat.testBit_or,
      Bool.or_eq_true]
    refine Or.inr (within_resultMask (fun v hv j hj => ?_) g out i hi)
    by_cases hlate : g.WrittenLate o v
    · rw [hg.get_masksBefore_of_late hlate]
      exact ihlate v hv hlate j hj
    · rw [get_masksBefore_of_early hlate]
      exact ihearly v hv hlate j hj

/-- The induction is on the number of sweeps and, within a sweep, on the position of the writer. -/
theorem WellFormed.arrivesBy_of_sweeps (hg : g.WellFormed)
    (h : ((g.sweeps k).get v).toNat.testBit i = true) : g.ArrivesBy k v i := by
  have hgiven {k v i : Nat} (hv : (g.varnode v).isWritten = false)
      (h : ((g.sweeps k).get v).toNat.testBit i = true) : g.ArrivesBy k v i := by
    rw [hg.get_sweeps_of_unwritten hv] at h
    exact .given hv h
  induction k generalizing v i with
  | zero =>
    cases hv : (g.varnode v).isWritten with
    | false => exact hgiven hv h
    | true =>
      rw [sweeps, get_startMasks, hv] at h
      simp at h
  | succ k ih =>
    have hwritten (o : OpId) : ∀ {v i : Nat}, (g.op o).output = some v →
        ((g.sweeps (k + 1)).get v).toNat.testBit i = true → g.ArrivesBy (k + 1) v i := by
      induction o using Nat.strongRecOn with
      | ind o ihop =>
        intro v i hout hi
        rw [sweeps, hg.get_sweep (g.size_sweeps k) hout, UInt64.toNat_or, Nat.testBit_or,
          Bool.or_eq_true] at hi
        rcases hi with hold | hnew
        · exact (ih hold).mono (Nat.le_succ k)
        · refine .result hout hnew (fun w hw hearly j hj => ?_) fun w hw hlate j hj => ?_
          · rw [get_masksBefore_of_early hearly] at hj
            cases hdef : (g.varnode w).definition with
            | none => exact hgiven (by rw [Varnode.isWritten, hdef]; rfl) hj
            | some o' =>
              have hout' := (hg.writes o' w).mpr hdef
              exact ihop o' (Nat.lt_of_not_le fun hle => hearly ⟨o', hout', hle⟩) hout' hj
          · rw [hg.get_masksBefore_of_late hlate] at hj
            exact ih hj
    cases hdef : (g.varnode v).definition with
    | none => exact hgiven (by rw [Varnode.isWritten, hdef]; rfl) h
    | some o => exact hwritten o ((hg.writes o v).mpr hdef) h

/-- A bit is in the mask after a number of sweeps exactly if it has arrived by then. -/
theorem WellFormed.testBit_sweeps_iff (hg : g.WellFormed) :
    ((g.sweeps k).get v).toNat.testBit i = true ↔ g.ArrivesBy k v i :=
  ⟨hg.arrivesBy_of_sweeps, ArrivesBy.testBit_sweeps hg⟩

/-! ## Chains against the order of creation -/

/-- One op writes an operand of the other, and that one has a result as well. -/
structure Feeds (g : Graph) (o o' : OpId) : Prop where
  /-- The value between the two. -/
  operand : ∃ v ∈ (g.op o').inputs, (g.op o).output = some v
  /-- The second op has a result. -/
  result : (g.op o').output.isSome = true

/-- A chain of ops up to a given one, each of which feeds the next, with a number of its steps that
lead to an op that was not created later. -/
inductive LateChain (g : Graph) : (late : Nat) → OpId → Prop where
  | start {o : OpId} (h : (g.op o).output.isSome = true) : LateChain g 0 o
  | early {n : Nat} {o o' : OpId} (h : LateChain g n o) (hfeeds : g.Feeds o o') (hlt : o < o') :
      LateChain g n o'
  | late {n : Nat} {o o' : OpId} (h : LateChain g n o) (hfeeds : g.Feeds o o') (hle : o' ≤ o) :
      LateChain g (n + 1) o'

/-- A bit that comes late has come along a chain with as many late steps. -/
theorem ArrivesBy.exists_lateChain (hg : g.WellFormed) (h : g.ArrivesBy k v i)
    (hnot : ¬g.ArrivesBy (n + 1) v i) : ∃ o, (g.op o).output = some v ∧ g.LateChain (n + 1) o := by
  induction h generalizing n with
  | given hv hi => exact absurd (.given hv hi) hnot
  | @result k o out i mask hout hi _ _ ihearly ihlate =>
    refine ⟨o, hout, ?_⟩
    by_contra hchain
    refine hnot (.result hout hi (fun v hv hearly j hj => ?_) fun v hv hlate j hj => ?_)
    · by_contra hmissing
      obtain ⟨o', hout', hchain'⟩ := ihearly v hv hearly j hj hmissing
      exact hchain (hchain'.early ⟨⟨v, hv, hout'⟩, by rw [hout]; rfl⟩
        (Nat.lt_of_not_le fun hle => hearly ⟨o', hout', hle⟩))
    · obtain ⟨o', hout', hle⟩ := hlate
      by_contra hmissing
      have hfeeds : g.Feeds o' o := ⟨⟨v, hv, hout'⟩, by rw [hout]; rfl⟩
      cases n with
      | zero => exact hchain ((LateChain.start (by rw [hout']; rfl)).late hfeeds hle)
      | succ n =>
        obtain ⟨o'', hout'', hchain'⟩ := ihlate v hv ⟨o', hout', hle⟩ j hj hmissing
        rw [hg.writer_unique hout' hout''] at hchain'
        exact hchain (hchain'.late hfeeds hle)

/-! ## Graphs without cycles -/

/-- The value is the result of an op with the other value as an operand. -/
def DependsOn (g : Graph) (v w : VarnodeId) : Prop :=
  ∃ o, (g.op o).output = some v ∧ w ∈ (g.op o).inputs

/-- No value depends on itself through the ops. -/
def Acyclic (g : Graph) : Prop := ∀ v, ¬Relation.TransGen g.DependsOn v v

/-- The ops of a chain without repetitions. Their results are what the last one depends on. -/
theorem LateChain.exists_ops (hacyclic : g.Acyclic) (h : g.LateChain n o) :
    ∃ (out : VarnodeId) (ops : List OpId), (g.op o).output = some out ∧ ops.Nodup ∧ n < ops.length ∧
      ∀ o' ∈ ops, ∃ v, (g.op o').output = some v ∧ Relation.ReflTransGen g.DependsOn out v := by
  have hstep {o o' : OpId} (hfeeds : g.Feeds o o') {out : VarnodeId} {ops : List OpId}
      (hout : (g.op o).output = some out) (hnodup : ops.Nodup)
      (hops : ∀ p ∈ ops, ∃ v, (g.op p).output = some v ∧ Relation.ReflTransGen g.DependsOn out v) :
      ∃ out', (g.op o').output = some out' ∧ (o' :: ops).Nodup ∧ ∀ p ∈ o' :: ops,
        ∃ v, (g.op p).output = some v ∧ Relation.ReflTransGen g.DependsOn out' v := by
    obtain ⟨⟨w, hw, hwrites⟩, hsome⟩ := hfeeds
    obtain rfl : out = w := Option.some.inj (hout.symm.trans hwrites)
    obtain ⟨out', hout'⟩ := Option.isSome_iff_exists.mp hsome
    have hdepends : g.DependsOn out' out := ⟨o', hout', hw⟩
    refine ⟨out', hout', List.nodup_cons.mpr ⟨fun hmem => ?_, hnodup⟩, ?_⟩
    · obtain ⟨v, hv, hreach⟩ := hops o' hmem
      obtain rfl : out' = v := Option.some.inj (hout'.symm.trans hv)
      exact hacyclic out' (Relation.TransGen.head' hdepends hreach)
    · rintro p (_ | ⟨_, hp⟩)
      · exact ⟨out', hout', .refl⟩
      · obtain ⟨v, hv, hreach⟩ := hops p hp
        exact ⟨v, hv, .head hdepends hreach⟩
  induction h with
  | @start o hsome =>
    obtain ⟨out, hout⟩ := Option.isSome_iff_exists.mp hsome
    exact ⟨out, [o], hout, List.nodup_singleton o, Nat.one_pos, by simpa using ⟨out, hout, .refl⟩⟩
  | early _ hfeeds _ ih =>
    obtain ⟨out, ops, hout, hnodup, hlength, hops⟩ := ih
    obtain ⟨out', hout', hnodup', hops'⟩ := hstep hfeeds hout hnodup hops
    exact ⟨out', _, hout', hnodup', Nat.lt_succ_of_lt hlength, hops'⟩
  | late _ hfeeds _ ih =>
    obtain ⟨out, ops, hout, hnodup, hlength, hops⟩ := ih
    obtain ⟨out', hout', hnodup', hops'⟩ := hstep hfeeds hout hnodup hops
    exact ⟨out', _, hout', hnodup', Nat.succ_lt_succ hlength, hops'⟩

/-- Without cycles a chain has fewer late steps than the graph has ops. -/
theorem LateChain.lt_size (hacyclic : g.Acyclic) (h : g.LateChain n o) : n < g.ops.size := by
  obtain ⟨out, ops, -, hnodup, hlength, hops⟩ := h.exists_ops hacyclic
  have hsubset : ops ⊆ List.range g.ops.size := by
    intro o' ho'
    obtain ⟨v, hv, -⟩ := hops o' ho'
    exact List.mem_range.mpr (lt_size_of_output hv)
  have hle := (hnodup.subperm hsubset).length_le
  rw [List.length_range] at hle
  omega

/-! ## Copies that are created last to first -/

/-- An input with one bit that is copied again and again, the last copy created first. -/
def backwardCopies (n : Nat) : Graph where
  name := "f"
  spaces := .simple
  stack := 2
  varnodes := Array.ofFn (n := n + 1) fun v =>
    { address := ⟨1, UInt64.ofNat (8 * v)⟩
      size := 1
      input := v.val = 0
      mask := if v.val = 0 then 1 else 0xff
      definition := if v.val = 0 then none else some (n - v)
      readers := if v < n then [n - 1 - v] else [] }
  ops := Array.ofFn (n := n) fun o =>
    { opcode := .copy, address := ⟨1, 0⟩, inputs := [n - 1 - o], output := some (n - o) }
  locations := (List.range (n + 1)).map fun v => ⟨1, UInt64.ofNat (8 * v), 1, v⟩

/-- The ops are copies, of which each reads what the next one writes. -/
theorem op_backwardCopies (h : o < n) : (backwardCopies n).op o =
    { opcode := .copy, address := ⟨1, 0⟩, inputs := [n - 1 - o], output := some (n - o) } := by
  simp [backwardCopies, op, h]

/-- The values lie one after the other, and the first one is an input. -/
theorem varnode_backwardCopies (h : v ≤ n) : (backwardCopies n).varnode v =
    { address := ⟨1, UInt64.ofNat (8 * v)⟩
      size := 1
      input := v = 0
      mask := if v = 0 then 1 else 0xff
      definition := if v = 0 then none else some (n - v)
      readers := if v < n then [n - 1 - v] else [] } := by
  simp [backwardCopies, varnode, Nat.lt_succ_of_le h]

/-- There is an op for each copy. -/
theorem size_ops_backwardCopies (n : Nat) : (backwardCopies n).ops.size = n := Array.size_ofFn

/-- Every value but the first is the result of a copy. -/
theorem output_backwardCopies (hpos : 0 < v) (h : v ≤ n) :
    ((backwardCopies n).op (n - v)).output = some v := by
  rw [op_backwardCopies (by omega)]
  exact congrArg some (Nat.sub_sub_self h)

/-- Each copy reads the value before its own. -/
theorem inputs_backwardCopies (h : ((backwardCopies n).op o).output = some v) :
    o < n ∧ v = n - o ∧ ((backwardCopies n).op o).inputs = [v - 1] := by
  have ho : o < n := size_ops_backwardCopies n ▸ lt_size_of_output h
  rw [op_backwardCopies ho] at h ⊢
  obtain rfl : n - o = v := Option.some.inj h
  exact ⟨ho, rfl, by rw [Nat.sub_right_comm]⟩

/-- Each value but the last one is read by one op. -/
theorem readers_backwardCopies (h : v ≤ n) :
    ((backwardCopies n).varnode v).readers = if v < n then [n - 1 - v] else [] :=
  congrArg Varnode.readers (varnode_backwardCopies h)

/-- Each value but the first one is written by one op. -/
theorem definition_backwardCopies (h : v ≤ n) :
    ((backwardCopies n).varnode v).definition = if v = 0 then none else some (n - v) :=
  congrArg Varnode.definition (varnode_backwardCopies h)

/-- Copies in backward order are a well-formed graph. -/
theorem wellFormed_backwardCopies (n : Nat) : (backwardCopies n).WellFormed := by
  have hvalues : (backwardCopies n).varnodes.size = n + 1 := Array.size_ofFn
  have hplaces : (backwardCopies n).byLocation = List.range (n + 1) := by
    rw [byLocation, backwardCopies, List.map_map]
    exact List.map_id _
  rw [wellFormed_iff, size_ops_backwardCopies, hvalues, hplaces]
  refine ⟨fun o ho => ?_, fun v hv => ?_, fun v => List.mem_range.mp, fun v => List.mem_range.mpr⟩
  · rw [op_backwardCopies ho]
    refine ⟨fun v hv => ?_, fun v hv => ?_⟩
    · obtain rfl : v = n - 1 - o := List.mem_singleton.mp hv
      rw [readers_backwardCopies (by omega), if_pos (by omega), List.mem_singleton]
      omega
    · obtain rfl : n - o = v := Option.mem_some.mp hv
      rw [definition_backwardCopies (by omega), if_neg (by omega), Option.some_inj]
      omega
  · have hle : v ≤ n := Nat.le_of_lt_succ hv
    rw [readers_backwardCopies hle, definition_backwardCopies hle]
    refine ⟨fun o ho => ?_, fun o ho => ?_⟩
    · split at ho
      · obtain rfl := List.mem_singleton.mp ho
        rw [op_backwardCopies (by omega), List.mem_singleton]
        omega
      · cases ho
    · split at ho
      · cases ho
      · obtain rfl := Option.mem_some.mp ho
        exact output_backwardCopies (by omega) hle

/-- Copies in backward order are acyclic. -/
theorem acyclic_backwardCopies (n : Nat) : (backwardCopies n).Acyclic := by
  have hstep {v w : Nat} (h : (backwardCopies n).DependsOn v w) : w < v := by
    obtain ⟨o, hout, hw⟩ := h
    obtain ⟨ho, rfl, hinputs⟩ := inputs_backwardCopies hout
    rw [hinputs] at hw
    obtain rfl := List.mem_singleton.mp hw
    omega
  intro v hv
  have hlt {w : Nat} (h : Relation.TransGen (backwardCopies n).DependsOn v w) : w < v := by
    induction h with
    | single h => exact hstep h
    | tail _ h ih => exact (hstep h).trans ih
  exact Nat.lt_irrefl v (hlt hv)

/-- A copy takes over the mask of its operand. -/
theorem resultMask_backwardCopies {mask : VarnodeId → UInt64}
    (h : ((backwardCopies n).op o).output = some v) :
    (backwardCopies n).resultMask mask ((backwardCopies n).op o) v = mask (v - 1) &&& 0xff := by
  obtain ⟨ho, rfl, -⟩ := inputs_backwardCopies h
  rw [resultMask, op_backwardCopies ho, varnode_backwardCopies (Nat.sub_le n o),
    Nat.sub_right_comm]
  rfl

/-- Every copy takes a sweep. -/
theorem ArrivesBy.le_of_backwardCopies (h : (backwardCopies n).ArrivesBy k v i) (hv : v ≤ n) :
    v ≤ k := by
  induction h with
  | @given k v i hunwritten hi =>
    rw [Varnode.isWritten, definition_backwardCopies hv] at hunwritten
    split at hunwritten
    · omega
    · cases hunwritten
  | @result k o out i mask hout hi _ _ _ ihlate =>
    rw [resultMask_backwardCopies hout, UInt64.toNat_and, Nat.testBit_and, Bool.and_eq_true] at hi
    obtain ⟨ho, rfl, hinputs⟩ := inputs_backwardCopies hout
    rcases Nat.eq_zero_or_pos (n - o - 1) with hfirst | hlater
    · omega
    · -- the copy before this one is created right after it
      have hafter : o ≤ n - (n - o - 1) := by omega
      have hlate : (backwardCopies n).WrittenLate o (n - o - 1) :=
        ⟨_, output_backwardCopies hlater (by omega), hafter⟩
      have hmem : n - o - 1 ∈ ((backwardCopies n).op o).inputs := by
        rw [hinputs]
        exact List.mem_singleton_self _
      have hle := ihlate _ hmem hlate i hi.1 (by omega)
      omega

/-- In the least solution only the lowest bit is set, in every value. -/
theorem LeastSolution.eq_one_of_backwardCopies {least : VarnodeId → UInt64}
    (hleast : (backwardCopies n).LeastSolution least) (hv : v ≤ n) : least v = 1 := by
  induction v with
  | zero =>
    rw [hleast.unwritten 0 (by rw [varnode_backwardCopies hv]; rfl), varnode_backwardCopies hv]
    rfl
  | succ v ih =>
    have hwrites := output_backwardCopies (Nat.succ_pos v) hv
    rw [hleast.result _ (mem_ops_of_output hwrites) _ hwrites, resultMask_backwardCopies hwrites,
      Nat.succ_sub_one, ih (by omega)]
    rfl

/-! ## Giving up -/

/-- If every bit of the least solution has arrived, the next sweep has none to add. -/
theorem LeastSolution.sweeps_stay (hg : g.WellFormed) {least : VarnodeId → UInt64}
    (hleast : g.LeastSolution least)
    (h : ∀ v i, (least v).toNat.testBit i = true → g.ArrivesBy k v i) :
    g.sweeps (k + 1) = g.sweeps k := by
  refine Masks.Le.antisymm ⟨?_, fun v i hi => ?_⟩ (g.le_sweep _)
  · rw [size_sweeps, size_sweeps]
  · exact hg.testBit_sweeps_iff.mpr (h v i (hleast.within_sweeps (k + 1) v i hi))

/-- The masks settle exactly if every bit arrives before the last sweep, which then finds nothing to
change. -/
theorem WellFormed.installed_eq_iff (hg : g.WellFormed) {least : VarnodeId → UInt64}
    (hleast : g.LeastSolution least) : g.installed = least ↔
      (∀ v i, (least v).toNat.testBit i = true → g.ArrivesBy (maxSweeps - 1) v i) ∨
        g.Full least := by
  constructor
  · intro hsame
    rcases hg.installed_cases with ⟨k, hk, -, hmasks⟩ | ⟨-, hfull⟩
    · refine Or.inl fun v i hi => ?_
      rw [← hsame, hmasks] at hi
      exact (hg.testBit_sweeps_iff.mp hi).mono (Nat.le_sub_one_of_lt hk)
    · exact Or.inr (hsame ▸ hfull)
  · rintro (harrives | hfull)
    · rcases hg.installed_cases with ⟨k, -, hstays, hmasks⟩ | ⟨hchanges, -⟩
      · exact hmasks.trans (hleast.unique (hg.leastSolution_sweeps hstays))
      · exact absurd (hleast.sweeps_stay hg harrives) (hchanges (maxSweeps - 1) (by decide))
    · rcases hg.installed_least_or_full hleast with hsame | hfull'
      · exact hsame
      · funext v
        cases hv : (g.varnode v).isWritten with
        | true => rw [hfull' v hv, hfull v hv]
        | false => rw [hg.installed_eq, hg.masks_of_unwritten hv, hleast.unwritten v hv]

/-- Without cycles the masks are the least solution exactly if each of its bits arrives before the
last sweep, unless it is the full one. Otherwise all results get full masks, there are at least as
many ops as sweeps, and the steps of some chain of ops against the order of creation are only one
fewer than the sweeps. -/
theorem WellFormed.installed_of_acyclic (hg : g.WellFormed) (hacyclic : g.Acyclic) :
    ∃ least, g.LeastSolution least ∧
      (g.installed = least ↔
        (∀ v i, (least v).toNat.testBit i = true → g.ArrivesBy (maxSweeps - 1) v i) ∨
          g.Full least) ∧
      (g.installed = least ∨ g.Full g.installed ∧ maxSweeps ≤ g.ops.size ∧
        ∃ o, g.LateChain (maxSweeps - 1) o) := by
  obtain ⟨k, hk⟩ := g.exists_sweeps_eq
  have hleast := hg.leastSolution_sweeps hk
  have hiff := hg.installed_eq_iff hleast
  refine ⟨_, hleast, hiff, ?_⟩
  by_cases hsame : g.installed = (g.sweeps k).get
  · exact Or.inl hsame
  · have hfull := (hg.installed_least_or_full hleast).resolve_left hsame
    have hnever := mt hiff.mpr hsame
    push Not at hnever
    obtain ⟨v, i, hi, hmissing⟩ := hnever.1
    obtain ⟨o, -, hchain⟩ := (hg.testBit_sweeps_iff.mp hi).exists_lateChain
      (n := maxSweeps - 2) hg hmissing
    exact Or.inr ⟨hfull, hchain.lt_size hacyclic, o, hchain⟩

/-- With 63 backward copies the masks settle. One more copy, and they are given up. -/
theorem backwardCopies_installed :
    (∃ least, (backwardCopies 63).LeastSolution least ∧ least 63 = 1 ∧
      (backwardCopies 63).installed = least) ∧
    ∃ least, (backwardCopies 64).LeastSolution least ∧ least 64 = 1 ∧
      (backwardCopies 64).installed 64 = 0xff := by
  constructor
  · obtain ⟨least, hleast, -, houtcome⟩ :=
      (wellFormed_backwardCopies 63).installed_of_acyclic (acyclic_backwardCopies 63)
    refine ⟨least, hleast, hleast.eq_one_of_backwardCopies (Nat.le_refl 63),
      houtcome.resolve_right fun hfull => ?_⟩
    have hsize := hfull.2.1
    rw [size_ops_backwardCopies] at hsize
    exact absurd hsize (by decide)
  · obtain ⟨least, hleast, hiff, houtcome⟩ :=
      (wellFormed_backwardCopies 64).installed_of_acyclic (acyclic_backwardCopies 64)
    have hone := hleast.eq_one_of_backwardCopies (Nat.le_refl 64)
    have hlast := varnode_backwardCopies (Nat.le_refl 64)
    have hwritten : ((backwardCopies 64).varnode 64).isWritten = true := by
      rw [hlast]
      rfl
    have hgivenUp : (backwardCopies 64).installed ≠ least := by
      intro hsame
      rcases hiff.mp hsame with harrives | hfull
      · have hle := (harrives 64 0 (by rw [hone]; rfl)).le_of_backwardCopies (Nat.le_refl 64)
        exact absurd hle (by decide)
      · have hword := hfull 64 hwritten
        rw [hone, hlast] at hword
        exact absurd hword (by decide)
    refine ⟨least, hleast, hone, ?_⟩
    rw [(houtcome.resolve_left hgivenUp).1 64 hwritten, hlast]
    rfl

end Graph

end TypeRecovery
