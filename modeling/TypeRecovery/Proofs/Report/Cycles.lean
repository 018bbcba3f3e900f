import Mathlib.Data.List.Lex
import Mathlib.Data.List.Nodup
import Mathlib.Data.List.Sort
import Mathlib.Logic.Relation
import Mathlib.Order.Partition.Finpartition
import TypeRecovery.Proofs.Routine
import TypeRecovery.Report.Flow

/-!
# Cycles are loops of the data flow

The values that a value flows into are found by a search that marks a value when it joins the
frontier, so the search ends with every value that a path leads to. A value is on a cycle if a path
leads from it back to it, and two values are on one cycle if paths lead from each of them to the
other. The same cycles come out of the strongly connected components of the data-flow graph, however
they are computed, if those without a step inside are dropped and the others are sorted.
-/

namespace TypeRecovery

namespace Graph

variable {g : Graph} {v w o fuel : Nat} {frontier seen : List VarnodeId}

/-! ## Steps -/

/-- A live op reads the first value, which is not a constant, and writes the second. -/
def FlowsBy (g : Graph) (o : OpId) (v w : VarnodeId) : Prop :=
  (g.varnode v).constant = false ∧ (g.op o).dead = false ∧ v ∈ (g.op o).inputs ∧
    (g.op o).output = some w

/-- A value flows into another through some op. -/
def Flows (g : Graph) (v w : VarnodeId) : Prop := ∃ o, g.FlowsBy o v w

/-- Values flow through ops of the graph. -/
theorem FlowsBy.lt_size (h : g.FlowsBy o v w) : o < g.ops.size := lt_size_of_output h.2.2.2

/-- The successors of a value are what it flows into. -/
theorem mem_successors_iff : w ∈ g.successors v ↔ g.Flows v w := by
  rw [successors, Flows]
  cases hconstant : (g.varnode v).constant with
  | true => simp [FlowsBy, hconstant]
  | false =>
    simp only [Bool.false_eq_true, if_false, List.mem_filterMap, Array.mem_toList_iff]
    constructor
    · rintro ⟨op, hop, hw⟩
      obtain ⟨o, ho, rfl⟩ := Array.mem_iff_getElem.mp hop
      have hat : g.op o = g.ops[o] := by rw [op, Array.getElem?_eq_getElem ho, Option.getD_some]
      rw [← hat, Option.ite_none_right_eq_some] at hw
      simp only [Bool.and_eq_true, Bool.not_eq_true', decide_eq_true_eq] at hw
      exact ⟨o, hconstant, hw.1.1, hw.1.2, hw.2⟩
    · rintro ⟨o, -, hlive, hv, hw⟩
      refine ⟨g.op o, (g.op_mem_or o).resolve_right fun hnone => ?_, ?_⟩
      · rw [hnone] at hw
        cases hw
      · rw [hlive, if_pos (by simpa using hv), hw]

/-- Values of the graph flow into values of the graph. -/
theorem WellFormed.lt_of_flows (hg : g.WellFormed) (h : g.Flows v w) :
    v < g.varnodes.size ∧ w < g.varnodes.size := by
  obtain ⟨o, -, -, hv, hw⟩ := h
  exact ⟨hg.lt_of_mem_inputs hv, hg.lt_of_output hw⟩

/-- Both ends of a path are values of the graph. -/
theorem WellFormed.lt_of_transGen (hg : g.WellFormed) (h : Relation.TransGen g.Flows v w) :
    v < g.varnodes.size ∧ w < g.varnodes.size := by
  induction h with
  | single hstep => exact hg.lt_of_flows hstep
  | tail _ hstep ih => exact ⟨ih.1, (hg.lt_of_flows hstep).2⟩

/-! ## The search -/

/-- The values that expanding a value adds to the frontier. -/
def newSuccessors (g : Graph) (v : VarnodeId) (seen : List VarnodeId) : List VarnodeId :=
  ((g.successors v).filter (· ∉ seen)).eraseDups

private theorem mem_newSuccessors : w ∈ g.newSuccessors v seen ↔ g.Flows v w ∧ w ∉ seen := by
  simp [newSuccessors, mem_successors_iff]

private theorem nodup_eraseDups (l : List VarnodeId) : l.eraseDups.Nodup := by
  match l with
  | [] => simp
  | a :: rest =>
    rw [List.eraseDups_cons, List.nodup_cons]
    exact ⟨by simp, nodup_eraseDups _⟩
termination_by l.length
decreasing_by exact Nat.lt_succ_of_le (List.length_filter_le ..)

private theorem closure_cons (g : Graph) (fuel v : Nat) (frontier seen : List VarnodeId) :
    g.closure (fuel + 1) (v :: frontier) seen =
      g.closure fuel (g.newSuccessors v seen ++ frontier) (g.newSuccessors v seen ++ seen) :=
  rfl

/-- What a search finds was seen before or is at the end of a path from the frontier. -/
theorem mem_closure (h : w ∈ g.closure fuel frontier seen) :
    w ∈ seen ∨ ∃ v ∈ frontier, Relation.TransGen g.Flows v w := by
  induction fuel generalizing frontier seen with
  | zero => exact Or.inl h
  | succ fuel ih =>
    cases frontier with
    | nil => exact Or.inl h
    | cons v frontier =>
      rw [closure_cons] at h
      rcases ih h with hseen | ⟨u, hu, hpath⟩
      · rcases List.mem_append.mp hseen with hnew | hold
        · exact Or.inr ⟨v, List.mem_cons_self, .single (mem_newSuccessors.mp hnew).1⟩
        · exact Or.inl hold
      · rcases List.mem_append.mp hu with hnew | hold
        · exact Or.inr ⟨v, List.mem_cons_self, .head (mem_newSuccessors.mp hnew).1 hpath⟩
        · exact Or.inr ⟨u, List.mem_cons_of_mem v hold, hpath⟩

/-- A search in progress: what was seen are different values of the graph, everything outside the
frontier has been expanded, and the fuel is enough for the frontier and for all unseen values. -/
structure Searching (g : Graph) (fuel : Nat) (frontier seen : List VarnodeId) : Prop where
  /-- No value was seen twice. -/
  nodup : seen.Nodup
  /-- What was seen are values of the graph. -/
  bound : ∀ v ∈ seen, v < g.varnodes.size
  /-- The successors of a value that has left the frontier were seen. -/
  expanded : ∀ v ∈ seen, v ∈ frontier ∨ ∀ w, g.Flows v w → w ∈ seen
  /-- Each value can still join the frontier once. -/
  enough : frontier.length + g.varnodes.size ≤ fuel + seen.length

/-- A step of the search takes a value from the frontier and adds its new successors. -/
theorem Searching.step (hg : g.WellFormed) (h : g.Searching (fuel + 1) (v :: frontier) seen) :
    g.Searching fuel (g.newSuccessors v seen ++ frontier) (g.newSuccessors v seen ++ seen) where
  nodup := by
    rw [List.nodup_append]
    refine ⟨nodup_eraseDups _, h.nodup, ?_⟩
    rintro x hx y hy rfl
    exact (mem_newSuccessors.mp hx).2 hy
  bound x hx := by
    rcases List.mem_append.mp hx with hnew | hold
    · exact (hg.lt_of_flows (mem_newSuccessors.mp hnew).1).2
    · exact h.bound x hold
  expanded x hx := by
    rcases List.mem_append.mp hx with hnew | hold
    · exact Or.inl (List.mem_append_left _ hnew)
    · rcases h.expanded x hold with hfrontier | hdone
      · rcases List.mem_cons.mp hfrontier with rfl | hrest
        · -- the value that leaves the frontier is expanded in this step
          refine Or.inr fun w hw => ?_
          by_cases hseen : w ∈ seen
          · exact List.mem_append_right _ hseen
          · exact List.mem_append_left _ (mem_newSuccessors.mpr ⟨hw, hseen⟩)
        · exact Or.inl (List.mem_append_right _ hrest)
      · exact Or.inr fun w hw => List.mem_append_right _ (hdone w hw)
  enough := by
    have henough := h.enough
    simp only [List.length_append, List.length_cons] at henough ⊢
    omega

/-- A search with an empty frontier has seen the successors of all that it has seen. -/
theorem Searching.done (h : g.Searching fuel [] seen) (hv : v ∈ seen) (hw : g.Flows v w) :
    w ∈ seen := by
  rcases h.expanded v hv with hnone | hdone
  · cases hnone
  · exact hdone w hw

/-- A search ends with a set of values that contains what was seen and that no step leaves. -/
theorem Searching.closed (hg : g.WellFormed) (h : g.Searching fuel frontier seen) :
    (∀ v ∈ seen, v ∈ g.closure fuel frontier seen) ∧
      ∀ v ∈ g.closure fuel frontier seen, ∀ w, g.Flows v w → w ∈ g.closure fuel frontier seen := by
  induction fuel generalizing frontier seen with
  | zero =>
    -- at most all values were seen, so without fuel nothing is left to expand
    have hall : seen.length ≤ g.varnodes.size := by
      have hsubset : seen ⊆ List.range g.varnodes.size :=
        fun v hv => List.mem_range.mpr (h.bound v hv)
      have hle := h.nodup.length_le_of_subset hsubset
      rwa [List.length_range] at hle
    have hempty : frontier = [] := by
      have henough := h.enough
      rw [← List.length_eq_zero_iff]
      omega
    subst hempty
    exact ⟨fun _ hv => hv, fun _ hv _ hw => h.done hv hw⟩
  | succ fuel ih =>
    cases frontier with
    | nil => exact ⟨fun _ hv => hv, fun _ hv _ hw => h.done hv hw⟩
    | cons v frontier =>
      rw [closure_cons]
      obtain ⟨hseen, hclosed⟩ := ih (h.step hg)
      exact ⟨fun x hx => hseen x (List.mem_append_right _ hx), hclosed⟩

/-- The search starts with the successors of a value. -/
theorem WellFormed.searching_start (hg : g.WellFormed) (v : Nat) :
    g.Searching g.varnodes.size (g.successors v).eraseDups (g.successors v).eraseDups where
  nodup := nodup_eraseDups _
  bound _ hw := (hg.lt_of_flows (mem_successors_iff.mp (List.mem_eraseDups.mp hw))).2
  expanded _ hw := Or.inl hw
  enough := Nat.le_of_eq (Nat.add_comm ..)

/-- The values found from a value are those that a path of at least one step leads to. -/
theorem WellFormed.mem_reachable_iff (hg : g.WellFormed) :
    w ∈ g.reachable v ↔ Relation.TransGen g.Flows v w := by
  constructor
  · intro h
    rcases mem_closure h with hw | ⟨u, hu, hpath⟩
    · exact .single (mem_successors_iff.mp (List.mem_eraseDups.mp hw))
    · exact .head (mem_successors_iff.mp (List.mem_eraseDups.mp hu)) hpath
  · intro h
    obtain ⟨hseen, hclosed⟩ := (hg.searching_start v).closed hg
    induction h with
    | single hstep => exact hseen _ (List.mem_eraseDups.mpr (mem_successors_iff.mpr hstep))
    | tail _ hstep ih => exact hclosed _ ih _ hstep

/-! ## Cycles -/

/-- Paths lead from each of two values to the other. -/
def OneCycle (g : Graph) (v w : VarnodeId) : Prop :=
  Relation.TransGen g.Flows v w ∧ Relation.TransGen g.Flows w v

/-- Being on one cycle is symmetric. -/
theorem OneCycle.symm (h : g.OneCycle v w) : g.OneCycle w v := ⟨h.2, h.1⟩

/-- Being on one cycle is transitive. -/
theorem OneCycle.trans {u : Nat} (h : g.OneCycle v w) (h' : g.OneCycle w u) : g.OneCycle v u :=
  ⟨h.1.trans h'.1, h'.2.trans h.2⟩

private theorem oneCycle_self : g.OneCycle v v ↔ Relation.TransGen g.Flows v v := and_self_iff

/-- The values on one cycle with a value. -/
def cycle (g : Graph) (v : VarnodeId) : List VarnodeId :=
  g.cycleOf ((Array.range g.varnodes.size).map g.reachable) v

/-- A cycle is listed in order. -/
theorem cycle_sorted (g : Graph) (v : Nat) : (g.cycle v).Pairwise (· < ·) :=
  List.pairwise_lt_range.filter _

/-- The cycle of a value consists of the values on one cycle with it. -/
theorem WellFormed.mem_cycle_iff (hg : g.WellFormed) : w ∈ g.cycle v ↔ g.OneCycle v w := by
  have hreach {x : Nat} (hx : x < g.varnodes.size) :
      ((Array.range g.varnodes.size).map g.reachable)[x]? = some (g.reachable x) := by
    simp [hx]
  rw [cycle, cycleOf, List.mem_filter, List.mem_range, OneCycle]
  constructor
  · rintro ⟨hw, hboth⟩
    rw [Bool.and_eq_true, decide_eq_true_eq, decide_eq_true_eq] at hboth
    obtain ⟨hvw, hwv⟩ := hboth
    have hv : v < g.varnodes.size := by
      by_contra hnot
      rw [Array.getElem?_eq_none (by simpa using Nat.le_of_not_lt hnot)] at hvw
      cases hvw
    rw [hreach hv] at hvw
    rw [hreach hw] at hwv
    exact ⟨hg.mem_reachable_iff.mp hvw, hg.mem_reachable_iff.mp hwv⟩
  · rintro ⟨hvw, hwv⟩
    obtain ⟨hv, hw⟩ := hg.lt_of_transGen hvw
    refine ⟨hw, ?_⟩
    rw [hreach hv, hreach hw, Bool.and_eq_true, decide_eq_true_eq, decide_eq_true_eq]
    exact ⟨hg.mem_reachable_iff.mpr hvw, hg.mem_reachable_iff.mpr hwv⟩

/-- Values on one cycle have the same cycle. -/
theorem WellFormed.cycle_eq (hg : g.WellFormed) (h : g.OneCycle v w) : g.cycle v = g.cycle w := by
  apply (g.cycle_sorted v).eq_of_mem_iff (g.cycle_sorted w)
  intro u
  rw [hg.mem_cycle_iff, hg.mem_cycle_iff]
  exact ⟨h.symm.trans, h.trans⟩

/-- A cycle is listed for its first value. -/
theorem mem_feedbackCycles {c : List VarnodeId} :
    c ∈ g.feedbackCycles ↔ ∃ v < g.varnodes.size, (g.cycle v).head? = some v ∧ c = g.cycle v := by
  rw [feedbackCycles, List.mem_filterMap]
  constructor
  · rintro ⟨v, hv, hc⟩
    change (if (g.cycle v).head? = some v then some (g.cycle v) else none) = some c at hc
    split at hc
    · rename_i hhead
      cases hc
      exact ⟨v, List.mem_range.mp hv, hhead, rfl⟩
    · cases hc
  · rintro ⟨v, hv, hhead, rfl⟩
    exact ⟨v, List.mem_range.mpr hv, if_pos hhead⟩

/-- The cycles that are listed are those of the values that flow back into themselves. -/
theorem WellFormed.mem_feedbackCycles_iff (hg : g.WellFormed) {c : List VarnodeId} :
    c ∈ g.feedbackCycles ↔ ∃ v, g.OneCycle v v ∧ c = g.cycle v := by
  rw [mem_feedbackCycles]
  constructor
  · rintro ⟨v, -, hhead, rfl⟩
    exact ⟨v, hg.mem_cycle_iff.mp (List.mem_of_head? hhead), rfl⟩
  · rintro ⟨v, hv, rfl⟩
    obtain ⟨first, hfirst⟩ : ∃ first, (g.cycle v).head? = some first := by
      rw [← Option.isSome_iff_exists, List.isSome_head?]
      exact List.ne_nil_of_mem (hg.mem_cycle_iff.mpr hv)
    have hone := hg.mem_cycle_iff.mp (List.mem_of_head? hfirst)
    have hsame := hg.cycle_eq hone
    exact ⟨first, (hg.lt_of_transGen hone.1).2, hsame ▸ hfirst, hsame⟩

/-- Two values are on one listed cycle exactly when each leads to the other. -/
theorem WellFormed.both_mem_feedbackCycles (hg : g.WellFormed) :
    (∃ c ∈ g.feedbackCycles, v ∈ c ∧ w ∈ c) ↔ g.OneCycle v w := by
  constructor
  · rintro ⟨c, hc, hv, hw⟩
    obtain ⟨u, -, rfl⟩ := hg.mem_feedbackCycles_iff.mp hc
    exact (hg.mem_cycle_iff.mp hv).symm.trans (hg.mem_cycle_iff.mp hw)
  · intro h
    have hself : g.OneCycle v v := h.trans h.symm
    exact ⟨g.cycle v, hg.mem_feedbackCycles_iff.mpr ⟨v, hself, rfl⟩, hg.mem_cycle_iff.mpr hself,
      hg.mem_cycle_iff.mpr h⟩

/-- The first list starts with a smaller value than the second. -/
def StartsBefore (c d : List VarnodeId) : Prop := ∃ v ∈ c.head?, ∃ w ∈ d.head?, v < w

/-- A list that starts before another one is less. -/
theorem StartsBefore.lt {c d : List VarnodeId} (h : StartsBefore c d) : c < d := by
  obtain ⟨v, hv, w, hw, hlt⟩ := h
  obtain ⟨c, rfl⟩ := List.head?_eq_some_iff.mp hv
  obtain ⟨d, rfl⟩ := List.head?_eq_some_iff.mp hw
  exact List.cons_lt_cons_iff.mpr (Or.inl hlt)

/-- The cycles are in the order of their first values. -/
theorem feedbackCycles_sorted (g : Graph) : g.feedbackCycles.Pairwise StartsBefore := by
  rw [feedbackCycles, List.pairwise_filterMap]
  refine List.pairwise_lt_range.imp fun {v w} hlt c hc d hd => ?_
  obtain ⟨hv, ⟨⟩⟩ := Option.ite_none_right_eq_some.mp hc
  obtain ⟨hw, ⟨⟩⟩ := Option.ite_none_right_eq_some.mp hd
  exact ⟨v, hv, w, hw, hlt⟩

/-- No value is listed twice. -/
theorem WellFormed.feedbackCycles_nodup (hg : g.WellFormed) : g.feedbackCycles.flatten.Nodup := by
  rw [List.nodup_flatten]
  constructor
  · intro c hc
    obtain ⟨v, -, rfl⟩ := hg.mem_feedbackCycles_iff.mp hc
    exact (g.cycle_sorted v).imp fun hlt => Nat.ne_of_lt hlt
  · refine g.feedbackCycles_sorted.imp_of_mem fun {c d} hc hd hbefore x hxc hxd => ?_
    obtain ⟨v, -, rfl⟩ := hg.mem_feedbackCycles_iff.mp hc
    obtain ⟨w, -, rfl⟩ := hg.mem_feedbackCycles_iff.mp hd
    -- cycles that share a value are one cycle, which does not start before itself
    have hone := (hg.mem_cycle_iff.mp hxc).trans (hg.mem_cycle_iff.mp hxd).symm
    rw [hg.cycle_eq hone] at hbefore
    exact lt_irrefl _ hbefore.lt

/-! ## The data-flow graph -/

namespace FlowGraph

variable {f : FlowGraph} {out : Nat} {inputs : List VarnodeId}

/-- A step of a data-flow graph leads from one value to another. -/
def Step (f : FlowGraph) (v w : VarnodeId) : Prop := ∃ e ∈ f.edges, e.source = v ∧ e.dest = w

private theorem mem_addNode : w ∈ (f.addNode v).nodes ↔ w ∈ f.nodes ∨ w = v := by
  rw [addNode]
  split
  · rename_i hmem
    exact ⟨Or.inl, fun h => h.elim id fun he => he ▸ hmem⟩
  · simp

private theorem step_addNode {u : Nat} : (f.addNode u).Step v w ↔ f.Step v w := by
  rw [addNode]
  split <;> rfl

private theorem step_addStep {u : Nat} : (addStep g o out f u).Step v w ↔
    f.Step v w ∨ (g.varnode v).constant = false ∧ v = u ∧ w = out := by
  rw [addStep]
  split
  · rename_i hconstant
    refine ⟨Or.inl, fun h => h.elim id ?_⟩
    rintro ⟨hv, rfl, -⟩
    rw [hconstant] at hv
    cases hv
  · rename_i hconstant
    rw [← step_addNode (u := u) (f := f)]
    simp only [Step, List.mem_append, List.mem_singleton, or_and_right, exists_or,
      exists_eq_left]
    refine or_congr Iff.rfl ⟨?_, ?_⟩
    · rintro ⟨rfl, rfl⟩
      exact ⟨by simpa using hconstant, rfl, rfl⟩
    · rintro ⟨-, rfl, rfl⟩
      exact ⟨rfl, rfl⟩

private theorem mem_addStep {u : Nat} : w ∈ (addStep g o out f u).nodes ↔
    w ∈ f.nodes ∨ (g.varnode w).constant = false ∧ w = u := by
  rw [addStep]
  split
  · rename_i hconstant
    refine ⟨Or.inl, fun h => h.elim id ?_⟩
    rintro ⟨hw, rfl⟩
    rw [hconstant] at hw
    cases hw
  · rename_i hconstant
    refine mem_addNode.trans (or_congr Iff.rfl ⟨?_, And.right⟩)
    rintro rfl
    exact ⟨by simpa using hconstant, rfl⟩

private theorem step_addStep_foldl : (inputs.foldl (addStep g o out) f).Step v w ↔
    f.Step v w ∨ (g.varnode v).constant = false ∧ v ∈ inputs ∧ w = out := by
  induction inputs generalizing f with
  | nil => simp
  | cons u rest ih =>
    rw [List.foldl_cons, ih, step_addStep, List.mem_cons]
    tauto

private theorem mem_addStep_foldl : w ∈ (inputs.foldl (addStep g o out) f).nodes ↔
    w ∈ f.nodes ∨ (g.varnode w).constant = false ∧ w ∈ inputs := by
  induction inputs generalizing f with
  | nil => simp
  | cons u rest ih =>
    rw [List.foldl_cons, ih, mem_addStep, List.mem_cons]
    tauto

/-- An op adds the steps through it. -/
theorem step_addOp : (addOp g f o).Step v w ↔ f.Step v w ∨ g.FlowsBy o v w := by
  rw [addOp, FlowsBy]
  cases hout : (g.op o).output with
  | none => simp
  | some out =>
    dsimp only
    split
    · rename_i hdead
      simp [hdead]
    · rename_i hlive
      rw [step_addStep_foldl, step_addNode, Option.some_inj, eq_comm (a := w)]
      simp only [Bool.eq_false_of_not_eq_true hlive, true_and]

/-- An op takes no value away, and adds the ends of the steps through it. -/
theorem mem_addOp (h : w ∈ f.nodes ∨ ∃ u, g.FlowsBy o u w ∨ g.FlowsBy o w u) :
    w ∈ (addOp g f o).nodes := by
  rw [addOp]
  rcases h with hold | ⟨u, ⟨-, hlive, -, hout⟩ | ⟨hconstant, hlive, hin, hout⟩⟩
  · cases (g.op o).output with
    | none => exact hold
    | some out =>
      dsimp only
      split
      · exact hold
      · exact mem_addStep_foldl.mpr (Or.inl (mem_addNode.mpr (Or.inl hold)))
  · simp only [hout, hlive, Bool.false_eq_true, if_false]
    exact mem_addStep_foldl.mpr (Or.inl (mem_addNode.mpr (Or.inr rfl)))
  · simp only [hout, hlive, Bool.false_eq_true, if_false]
    exact mem_addStep_foldl.mpr (Or.inr ⟨hconstant, hin⟩)

/-- The steps that ops add are those by which values flow through them. -/
theorem step_addOp_foldl {ops : List OpId} :
    (ops.foldl (addOp g) f).Step v w ↔ f.Step v w ∨ ∃ o ∈ ops, g.FlowsBy o v w := by
  induction ops generalizing f with
  | nil => simp
  | cons o rest ih =>
    rw [List.foldl_cons, ih, step_addOp, List.exists_mem_cons_iff, or_assoc]

/-- The values that flow through ops are in the graph. -/
theorem mem_addOp_foldl {ops : List OpId}
    (h : w ∈ f.nodes ∨ ∃ o ∈ ops, ∃ u, g.FlowsBy o u w ∨ g.FlowsBy o w u) :
    w ∈ (ops.foldl (addOp g) f).nodes := by
  induction ops generalizing f with
  | nil => simpa using h
  | cons o rest ih =>
    rw [List.exists_mem_cons_iff, ← or_assoc] at h
    exact ih (h.imp mem_addOp id)

end FlowGraph

/-- The steps of the data-flow graph are those by which values flow. -/
theorem step_flowGraph : g.flowGraph.Step v w ↔ g.Flows v w := by
  rw [flowGraph, FlowGraph.step_addOp_foldl]
  constructor
  · rintro (⟨e, he, -⟩ | ⟨o, -, hflows⟩)
    · cases he
    · exact ⟨o, hflows⟩
  · rintro ⟨o, hflows⟩
    exact Or.inr ⟨o, List.mem_range.mpr hflows.lt_size, hflows⟩

private theorem flowGraph_step (g : Graph) : g.flowGraph.Step = g.Flows := by
  funext v w
  exact propext step_flowGraph

/-- Both ends of a step are values of the data-flow graph. -/
theorem mem_flowGraph (h : g.Flows v w) : v ∈ g.flowGraph.nodes ∧ w ∈ g.flowGraph.nodes := by
  obtain ⟨o, hflows⟩ := h
  have ho := List.mem_range.mpr hflows.lt_size
  exact ⟨FlowGraph.mem_addOp_foldl (Or.inr ⟨o, ho, w, Or.inr hflows⟩),
    FlowGraph.mem_addOp_foldl (Or.inr ⟨o, ho, v, Or.inl hflows⟩)⟩

/-! ## Strongly connected components -/

/-- The strongly connected components of a data-flow graph: each of its values is in exactly one of
them, together with the values that it leads to and that lead to it. -/
structure FlowGraph.Components (f : FlowGraph) (components : List (List VarnodeId)) : Prop where
  /-- No component is empty. -/
  nonempty : ∀ c ∈ components, c ≠ []
  /-- No value is listed twice. -/
  nodup : components.flatten.Nodup
  /-- Exactly the values of the graph are listed. -/
  nodes : ∀ v, v ∈ components.flatten ↔ v ∈ f.nodes
  /-- A component holds with a value those that paths join with it in both directions. -/
  connected : ∀ c ∈ components, ∀ v ∈ c, ∀ w ∈ f.nodes,
    w ∈ c ↔ Relation.ReflTransGen f.Step v w ∧ Relation.ReflTransGen f.Step w v

/-- Values are connected when paths lead from each of them to the other. -/
def FlowGraph.connection (f : FlowGraph) : Setoid VarnodeId where
  r v w := Relation.ReflTransGen f.Step v w ∧ Relation.ReflTransGen f.Step w v
  iseqv := {
    refl := fun _ => ⟨.refl, .refl⟩
    symm := And.symm
    trans := fun h h' => ⟨h.1.trans h'.1, h'.2.trans h.2⟩ }

/-- Every data-flow graph has strongly connected components. -/
theorem FlowGraph.exists_components (f : FlowGraph) : ∃ components, f.Components components := by
  classical
  let classes := Finpartition.ofSetSetoid f.connection f.nodes.toFinset
  refine ⟨classes.parts.toList.map Finset.toList, ?_, ?_, fun v => ?_, ?_⟩
  · simp
  · simp only [List.nodup_flatten, List.forall_mem_map, List.pairwise_map]
    refine ⟨fun c _ => c.nodup_toList, (Finset.nodup_toList _).imp_of_mem fun hc hd hne => ?_⟩
    intro v hv hv'
    have hdisjoint := classes.disjoint (Finset.mem_toList.mp hc) (Finset.mem_toList.mp hd) hne
    exact Finset.disjoint_left.mp hdisjoint (Finset.mem_toList.mp hv) (Finset.mem_toList.mp hv')
  · have hcover := Finset.ext_iff.mp classes.biUnion_parts v
    simpa using hcover
  · simp only [List.forall_mem_map, Finset.mem_toList]
    intro c hc v hv w hw
    rw [← classes.part_eq_of_mem hc hv, Finpartition.mem_part_ofSetSetoid_iff_rel]
    have hv' : v ∈ f.nodes.toFinset := classes.le hc hv
    exact ⟨fun h => h.2.2, fun h => ⟨hv', List.mem_toFinset.mpr hw, h⟩⟩

/-- Whether a component has more than one value, or a step from its value to itself. -/
def FlowGraph.isLoop (f : FlowGraph) (c : List VarnodeId) : Bool :=
  1 < c.length || c.head?.any fun v => f.edges.any fun e => e.source = v && e.dest = v

/-- The components that are loops, each with its values in order, and in order themselves. -/
def FlowGraph.loops (f : FlowGraph) (components : List (List VarnodeId)) :
    List (List VarnodeId) :=
  ((components.filter f.isLoop).map (·.mergeSort (· ≤ ·))).mergeSort (· ≤ ·)

namespace FlowGraph.Components

variable {components : List (List VarnodeId)} {c : List VarnodeId}

section

variable (h : g.flowGraph.Components components) (hc : c ∈ components) (hv : v ∈ c)

include h hc hv

private theorem mem_iff_reflTransGen (hw : w ∈ g.flowGraph.nodes) :
    w ∈ c ↔ Relation.ReflTransGen g.Flows v w ∧ Relation.ReflTransGen g.Flows w v := by
  rw [h.connected c hc v hv w hw, flowGraph_step]

private theorem mem_nodes : v ∈ g.flowGraph.nodes :=
  (h.nodes v).mp (List.mem_flatten.mpr ⟨c, hc, hv⟩)

/-- The component of a value on a cycle holds the values of the cycle. -/
theorem mem_iff_oneCycle (hself : Relation.TransGen g.Flows v v) : w ∈ c ↔ g.OneCycle v w := by
  constructor
  · intro hw
    obtain ⟨hvw, hwv⟩ := (h.mem_iff_reflTransGen hc hv (h.mem_nodes hc hw)).mp hw
    exact ⟨hself.trans_left hvw, .trans_right hwv hself⟩
  · intro hone
    obtain ⟨u, -, hstep⟩ := Relation.TransGen.tail'_iff.mp hone.1
    exact (h.mem_iff_reflTransGen hc hv (mem_flowGraph hstep).2).mpr
      ⟨hone.1.to_reflTransGen, hone.2.to_reflTransGen⟩

/-- A component is a loop exactly when its values flow back into themselves. -/
theorem isLoop_iff : g.flowGraph.isLoop c = true ↔ Relation.TransGen g.Flows v v := by
  have hback {x : Nat} (hx : x ∈ c) := (h.mem_iff_reflTransGen hc hv (h.mem_nodes hc hx)).mp hx
  simp only [isLoop, Bool.or_eq_true, decide_eq_true_eq, Option.any_eq_true, List.any_eq_true,
    Bool.and_eq_true]
  constructor
  · rintro (hmore | ⟨x, hx, e, he, hsource, hdest⟩)
    · obtain ⟨w, hw, hne⟩ : ∃ w ∈ c, w ≠ v := by
        by_contra hall
        push Not at hall
        have hnodup : c.Nodup := (List.nodup_flatten.mp h.nodup).1 c hc
        have hle := hnodup.length_le_of_subset fun w hw => List.mem_singleton.mpr (hall w hw)
        exact Nat.not_lt_of_le hle hmore
      obtain ⟨hvw, hwv⟩ := hback hw
      have hpath := (Relation.reflTransGen_iff_eq_or_transGen.mp hvw).resolve_left hne
      exact hpath.trans_left hwv
    · obtain ⟨hvx, hxv⟩ := hback (List.mem_of_head? hx)
      have hstep : g.Flows x x := step_flowGraph.mp ⟨e, he, hsource, hdest⟩
      exact .trans_right hvx (.trans_left (.single hstep) hxv)
  · intro hself
    by_cases hmore : 1 < c.length
    · exact Or.inl hmore
    · -- the only value of the component can flow back into itself by one step only
      obtain ⟨x, rfl⟩ : ∃ x, c = [x] := by
        rw [← List.length_eq_one_iff]
        have hpos := List.length_pos_of_mem hv
        omega
      obtain rfl := List.mem_singleton.mp hv
      obtain ⟨u, hstep, hrest⟩ := Relation.TransGen.head'_iff.mp hself
      have hu : u ∈ [v] :=
        (h.mem_iff_reflTransGen hc hv (mem_flowGraph hstep).2).mpr ⟨.single hstep, hrest⟩
      rw [List.mem_singleton.mp hu] at hstep
      exact Or.inr ⟨v, rfl, step_flowGraph.mpr hstep⟩

/-- The values of a loop, in order, are the cycle of each of them. -/
theorem mergeSort_eq_cycle (hg : g.WellFormed) (hself : Relation.TransGen g.Flows v v) :
    c.mergeSort (· ≤ ·) = g.cycle v := by
  have hnodup : c.Nodup := (List.nodup_flatten.mp h.nodup).1 c hc
  have hcycle : (g.cycle v).Nodup := (g.cycle_sorted v).imp fun hlt => Nat.ne_of_lt hlt
  have hperm : c.Perm (g.cycle v) := by
    rw [List.perm_ext_iff_of_nodup hnodup hcycle]
    intro w
    rw [h.mem_iff_oneCycle hc hv hself, hg.mem_cycle_iff]
  exact ((List.mergeSort_perm ..).trans hperm).eq_of_pairwise' (List.pairwise_mergeSort' (· ≤ ·) c)
    ((g.cycle_sorted v).imp fun hlt => Nat.le_of_lt hlt)

end

/-- Loops are different lists. -/
theorem nodup_sorted (h : g.flowGraph.Components components) :
    ((components.filter g.flowGraph.isLoop).map (·.mergeSort (· ≤ ·))).Nodup := by
  refine List.pairwise_map.mpr (((List.nodup_flatten.mp h.nodup).2.imp_of_mem ?_).filter _)
  intro c d hc _ hdisjoint hsame
  obtain ⟨v, hv⟩ := List.exists_mem_of_ne_nil c (h.nonempty c hc)
  have hv' : v ∈ c.mergeSort (· ≤ ·) := List.mem_mergeSort.mpr hv
  rw [hsame, List.mem_mergeSort] at hv'
  exact hdisjoint hv hv'

/-- The loops among the components are the cycles. -/
theorem loops_eq (h : g.flowGraph.Components components) (hg : g.WellFormed) :
    g.flowGraph.loops components = g.feedbackCycles := by
  have hsorted : g.feedbackCycles.Pairwise (· < ·) :=
    g.feedbackCycles_sorted.imp StartsBefore.lt
  have hperm : ((components.filter g.flowGraph.isLoop).map (·.mergeSort (· ≤ ·))).Perm
      g.feedbackCycles := by
    rw [List.perm_ext_iff_of_nodup h.nodup_sorted (hsorted.imp ne_of_lt)]
    intro cycle
    simp only [List.mem_map, List.mem_filter, hg.mem_feedbackCycles_iff, oneCycle_self]
    constructor
    · rintro ⟨c, ⟨hc, hloop⟩, rfl⟩
      obtain ⟨v, hv⟩ := List.exists_mem_of_ne_nil c (h.nonempty c hc)
      have hself := (h.isLoop_iff hc hv).mp hloop
      exact ⟨v, hself, h.mergeSort_eq_cycle hc hv hg hself⟩
    · rintro ⟨v, hself, rfl⟩
      obtain ⟨w, hstep, -⟩ := Relation.TransGen.head'_iff.mp hself
      obtain ⟨c, hc, hv⟩ := List.mem_flatten.mp ((h.nodes v).mpr (mem_flowGraph hstep).1)
      exact ⟨c, ⟨hc, (h.isLoop_iff hc hv).mpr hself⟩, h.mergeSort_eq_cycle hc hv hg hself⟩
  exact ((List.mergeSort_perm ..).trans hperm).eq_of_pairwise' (List.pairwise_mergeSort' (· ≤ ·) _)
    (hsorted.imp le_of_lt)

end FlowGraph.Components

/-! ## What is listed -/

/-- The cycles are the loops of the data flow. A value is listed exactly when a path of at least one
step leads from it back to it, two values are listed together exactly when paths lead from each of
them to the other, and no value is listed twice. Each list is in order, and the lists are in the
order of their first values. Whatever way of computing the strongly connected components of the
data-flow graph is used, the same lists come out of them. -/
theorem WellFormed.feedbackCycles_loops (hg : g.WellFormed) :
    (∀ v, (∃ c ∈ g.feedbackCycles, v ∈ c) ↔ Relation.TransGen g.Flows v v) ∧
      (∀ v w, (∃ c ∈ g.feedbackCycles, v ∈ c ∧ w ∈ c) ↔
        Relation.TransGen g.Flows v w ∧ Relation.TransGen g.Flows w v) ∧
      g.feedbackCycles.flatten.Nodup ∧
      (∀ c ∈ g.feedbackCycles, c.Pairwise (· < ·)) ∧
      g.feedbackCycles.Pairwise (fun c d => ∃ v ∈ c.head?, ∃ w ∈ d.head?, v < w) ∧
      ∀ components, g.flowGraph.Components components →
        g.flowGraph.loops components = g.feedbackCycles := by
  refine ⟨fun v => ?_, fun v w => hg.both_mem_feedbackCycles, hg.feedbackCycles_nodup,
    fun c hc => ?_, g.feedbackCycles_sorted, fun components h => h.loops_eq hg⟩
  · rw [← oneCycle_self, ← hg.both_mem_feedbackCycles]
    simp only [and_self]
  · obtain ⟨v, -, rfl⟩ := hg.mem_feedbackCycles_iff.mp hc
    exact g.cycle_sorted v

/-- A value that goes around a loop of two ops, one that is made from itself, and one that only a
dead op would lead back to. -/
def crossedLoops : Graph :=
  let values := (Routine.empty "f" .simple 2 (TypeTable.empty 8)).newInput 4 ⟨1, 0⟩
    |>.newConstant 4 1 |>.newVarnode 4 ⟨1, 8⟩ |>.newVarnode 4 ⟨1, 16⟩ |>.newVarnode 4 ⟨1, 24⟩
    |>.newVarnode 4 ⟨1, 32⟩ |>.newVarnode 4 ⟨1, 40⟩ |>.newVarnode 4 ⟨1, 48⟩
  values.graph.linkOp
      { opcode := .multiEqual, address := ⟨1, 0⟩, inputs := [0, 3], output := some 2 }
    |>.linkOp { opcode := .intAdd, address := ⟨1, 1⟩, inputs := [2, 1], output := some 3 }
    |>.linkOp { opcode := .multiEqual, address := ⟨1, 2⟩, inputs := [4, 2, 4], output := some 4 }
    |>.linkOp { opcode := .multiEqual, address := ⟨1, 3⟩, inputs := [2, 7], output := some 5 }
    |>.linkOp { opcode := .copy, address := ⟨1, 4⟩, inputs := [5], output := some 6 }
    |>.linkOp { opcode := .copy, address := ⟨1, 5⟩, inputs := [6], output := some 7, dead := true }

/-- The two ops give one list and the value that is made from itself another one. The dead op closes
no loop. -/
theorem crossedLoops_feedbackCycles :
    crossedLoops.WellFormed ∧
      crossedLoops.flowGraph.Components [[6], [5], [4], [3, 2], [0], [7]] ∧
      crossedLoops.flowGraph.loops [[6], [5], [4], [3, 2], [0], [7]] = [[2, 3], [4]] ∧
      Relation.TransGen crossedLoops.Flows 2 2 ∧ ¬Relation.TransGen crossedLoops.Flows 5 5 := by
  have hg : crossedLoops.WellFormed := by decide +kernel
  have hpath (v w : Nat) : Relation.ReflTransGen crossedLoops.flowGraph.Step v w ↔
      w = v ∨ w ∈ crossedLoops.reachable v := by
    rw [Relation.reflTransGen_iff_eq_or_transGen, flowGraph_step, hg.mem_reachable_iff]
  have hcycles : crossedLoops.feedbackCycles = [[2, 3], [4]] := by decide +kernel
  have hcomponents : crossedLoops.flowGraph.Components [[6], [5], [4], [3, 2], [0], [7]] := by
    refine ⟨by decide, by decide, fun v => ?_, ?_⟩
    · have hperm : [[6], [5], [4], [3, 2], [0], [7]].flatten.Perm crossedLoops.flowGraph.nodes := by
        decide +kernel
      exact hperm.mem_iff
    · simp only [hpath]
      decide +kernel
  obtain ⟨hlisted, -, -, -, -, hloops⟩ := hg.feedbackCycles_loops
  rw [hcycles] at hlisted hloops
  exact ⟨hg, hcomponents, hloops _ hcomponents, (hlisted 2).mp (by decide),
    fun h => absurd ((hlisted 5).mpr h) (by decide)⟩

end Graph

end TypeRecovery
