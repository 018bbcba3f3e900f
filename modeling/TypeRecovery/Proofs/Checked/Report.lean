import TypeRecovery.Proofs.Checked.Round
import TypeRecovery.Proofs.Report.Cycles
import TypeRecovery.Report.Basic

/-!
# Checked runs of verification and reports

What is checked and reported of a function is read from its values, their types and the cycles of
its data flow. Every value, op, space and type that is read exists.
-/

namespace TypeRecovery

namespace Checked

variable {g : Graph} {r : Routine} {v : Nat}

/-! ## Verification -/

/-- The observable values in order. -/
def observablesInOrder (g : Graph) : Checked (List VarnodeId) :=
  filter (fun v => return (← varnode g v).isObservable) (List.range g.varnodes.size)

/-- What is wrong with the type of a value. -/
def valueViolations (r : Routine) (v : VarnodeId) : Checked (List Violation) := do
  let node ← varnode r.graph v
  let known ← typing r.state v
  let type ← type r.state.types known.committed
  return (if known.temporary ≠ known.committed then [.temporaryDiffers v] else [])
    ++ (if type.metatype = .bool ∧ 1 < node.mask then [.wideBoolean v node.mask] else [])
    ++ (if type.size ≠ node.size then [.sizeMismatch v node.size type.size] else [])

/-- A fixed type that did not stay. -/
def lockViolation? (r : Routine) (noted : VarnodeId × TypeId) : Checked (Option Violation) := do
  let after ← committed r.state noted.1
  let before ← name r.state.types noted.2
  let now ← name r.state.types after
  return if after ≠ noted.2 then some (.lockedChanged noted.1 before now) else none

/-- Check all observable values, and that the noted types stayed. -/
def verify (r : Routine) (noted : LockedTypes) : Checked Verification := do
  let values ← observablesInOrder r.graph
  let wrong ← values.mapM (valueViolations r)
  let changed ← filterMap (lockViolation? r) noted
  return { checked := values.length, violations := wrong.flatten ++ changed }

/-- The observable values are ordered without a fault. -/
theorem observablesInOrder_eq (r : Routine) :
    observablesInOrder r.graph = .ok r.observablesInOrder := by
  refine filter_eq fun v hv => ?_
  rw [varnode_eq (List.mem_range.mp hv), ok_bind]
  rfl

/-- The observable values are values of the graph. -/
theorem lt_of_mem_observablesInOrder (h : v ∈ r.observablesInOrder) :
    v < r.graph.varnodes.size :=
  List.mem_range.mp (List.mem_filter.mp h).1

/-- A value is verified without a fault. -/
theorem valueViolations_eq (hs : Ready r.graph r.state) (hv : v < r.graph.varnodes.size) :
    valueViolations r v = .ok (r.valueViolations v) := by
  have hhas : r.state.types.Has (r.state.typing v).committed := (hs.valid_of hv).committed v
  rw [valueViolations, varnode_eq hv, ok_bind, typing_eq hs hv, ok_bind, type_eq hhas, ok_bind]
  rfl

/-- A lock is verified without a fault, if its value and its type exist. -/
theorem lockViolation?_eq (hs : Ready r.graph r.state) {noted : VarnodeId × TypeId}
    (hv : noted.1 < r.graph.varnodes.size) (ht : r.state.types.Has noted.2) :
    lockViolation? r noted = .ok (r.lockViolation? noted) := by
  rw [lockViolation?, committed_eq hs hv, ok_bind, name_eq ht, ok_bind,
    name_eq ((hs.valid_of hv).committed _), ok_bind]
  rfl

/-- A function is verified without a fault, if all locks that were noted exist. -/
theorem verify_eq (hs : Ready r.graph r.state) {noted : LockedTypes}
    (hnoted : ∀ x ∈ noted, x.1 < r.graph.varnodes.size ∧ r.state.types.Has x.2) :
    verify r noted = .ok (r.verify noted) := by
  rw [verify, observablesInOrder_eq, ok_bind,
    mapM_eq fun v hv => valueViolations_eq hs (lt_of_mem_observablesInOrder hv), ok_bind,
    filterMap_eq fun x hx => lockViolation?_eq hs (hnoted x hx).1 (hnoted x hx).2, ok_bind]
  rfl

/-! ## Cycles of data flow -/

/-- Add a step and the value it starts from. -/
def addStep (g : Graph) (o : OpId) (out : VarnodeId) (f : Graph.FlowGraph) (v : VarnodeId) :
    Checked Graph.FlowGraph := do
  if (← varnode g v).constant then return f
  else
    let f := f.addNode v
    return { f with edges := f.edges ++ [⟨v, out, o⟩] }

/-- Add the steps through an op. -/
def addOp (g : Graph) (f : Graph.FlowGraph) (o : OpId) : Checked Graph.FlowGraph := do
  let op ← op g o
  match op.output with
  | none => return f
  | some out => if op.dead then return f else op.inputs.foldlM (addStep g o out) (f.addNode out)

/-- The data flow of a function. -/
def flowGraph (g : Graph) : Checked Graph.FlowGraph := do
  let values ← filter (fun v => return !(← varnode g v).constant) (← observables g)
  (List.range g.ops.size).foldlM (addOp g) ⟨values, []⟩

/-- A value of a data-flow graph. -/
def node (f : Graph.FlowGraph) (v : VarnodeId) : Checked VarnodeId :=
  if v ∈ f.nodes then .ok v else .error .missing

/-- Whether a component has more than one value, or a step from its first value to itself. -/
def isLoop (f : Graph.FlowGraph) (c : List VarnodeId) : Checked Bool :=
  if 1 < c.length then .ok true
  else do
    let v ← pick c 0
    return f.edges.any fun e => e.source = v && e.dest = v

/-- The components that are loops, each with its values in order, and in order themselves. -/
def loops (f : Graph.FlowGraph) (components : List (List VarnodeId)) :
    Checked (List (List VarnodeId)) := do
  let cycles ← (← filter (isLoop f) components).mapM (·.mapM (node f))
  return (cycles.map (·.mergeSort (· ≤ ·))).mergeSort (· ≤ ·)

/-- The cycles of data flow, from the strongly connected components of the data-flow graph. -/
def feedbackCycles (g : Graph) (components : List (List VarnodeId)) :
    Checked (List (List VarnodeId)) := do
  loops (← flowGraph g) components

/-- A step of the flow graph is added without a fault. -/
theorem addStep_eq {o out : Nat} {f : Graph.FlowGraph} (hv : v < g.varnodes.size) :
    addStep g o out f v = .ok (Graph.FlowGraph.addStep g o out f v) := by
  rw [addStep, varnode_eq hv, ok_bind, Graph.FlowGraph.addStep]
  split <;> rfl

/-- The steps of an op are added without a fault. -/
theorem addOp_eq (hg : g.WellFormed) {o : Nat} {f : Graph.FlowGraph} (ho : o < g.ops.size) :
    addOp g f o = .ok (Graph.FlowGraph.addOp g f o) := by
  rw [addOp, op_eq ho, ok_bind, Graph.FlowGraph.addOp]
  cases (g.op o).output with
  | none => rfl
  | some out =>
    dsimp only
    split
    · rfl
    · exact (foldlM_eq (P := fun _ => True) trivial
        fun v hv _ _ => ⟨addStep_eq (hg.lt_of_mem_inputs hv), trivial⟩).1

/-- The data flow of a function is found without faults. -/
theorem flowGraph_eq (hg : g.WellFormed) : flowGraph g = .ok g.flowGraph := by
  have hvalues : filter (fun v => return !(← varnode g v).constant) g.observables =
      .ok (g.observables.filter fun v => !(g.varnode v).constant) :=
    filter_eq fun v hv => by
      rw [varnode_eq (lt_of_mem_observables hg hv), ok_bind]
      rfl
  rw [flowGraph, observables_eq hg, ok_bind, hvalues, ok_bind]
  exact (foldlM_eq (P := fun _ => True) trivial
    fun o ho _ _ => ⟨addOp_eq hg (List.mem_range.mp ho), trivial⟩).1

/-- A component is not empty, so its first value can be read. -/
theorem isLoop_eq {f : Graph.FlowGraph} {c : List VarnodeId} (hc : c ≠ []) :
    isLoop f c = .ok (f.isLoop c) := by
  rw [isLoop, Graph.FlowGraph.isLoop]
  split
  · rename_i hmore
    rw [decide_eq_true hmore, Bool.true_or]
  · rename_i hmore
    obtain ⟨v, rest, rfl⟩ := List.exists_cons_of_ne_nil hc
    rw [pick_eq rfl, ok_bind, decide_eq_false hmore, Bool.false_or]
    rfl

/-- The values of components are in the graph. -/
theorem loops_eq {f : Graph.FlowGraph} {components : List (List VarnodeId)}
    (h : f.Components components) : loops f components = .ok (f.loops components) := by
  have hnode : ∀ c ∈ components.filter f.isLoop, ∀ v ∈ c, node f v = .ok (id v) := by
    intro c hc v hv
    have hlisted := List.mem_flatten.mpr ⟨c, (List.mem_filter.mp hc).1, hv⟩
    exact if_pos ((h.nodes v).mp hlisted)
  have hnodes : ∀ c ∈ components.filter f.isLoop, c.mapM (node f) = .ok (id c) := by
    intro c hc
    rw [mapM_eq (hnode c hc), List.map_id, id]
  rw [loops, filter_eq fun c hc => isLoop_eq (h.nonempty c hc), ok_bind, mapM_eq hnodes, ok_bind,
    List.map_id]
  rfl

/-- The cycles are found without faults from the strongly connected components of the data flow,
however they are computed. -/
theorem feedbackCycles_eq (hg : g.WellFormed) {components : List (List VarnodeId)}
    (h : g.flowGraph.Components components) :
    feedbackCycles g components = .ok g.feedbackCycles := by
  rw [feedbackCycles, flowGraph_eq hg, ok_bind, loops_eq h, h.loops_eq hg]

/-! ## Reports -/

/-- The classification of the committed type of a value. -/
def committedMetatype (s : TypeState) (v : VarnodeId) : Checked Metatype := do
  metatype s.types (← committed s v)

/-- The coverage of a function. -/
def coverage (r : Routine) : Checked Coverage := do
  let values ← observablesInOrder r.graph
  let typed ← filter (fun v => return (← committedMetatype r.state v) ≠ .unknown) values
  let fixed ← filter (locked r.state) values
  return { observable := values.length, typed := typed.length, locked := fixed.length }

/-- The distribution of the types of a function. -/
def distribution (r : Routine) : Checked Distribution := do
  return .ofMetatypes (← (← observablesInOrder r.graph).mapM (committedMetatype r.state))

/-- The report on a value. -/
def reportValue (n : NamedRoutine) (v : VarnodeId) : Checked ValueReport := do
  let node ← varnode n.routine.graph v
  let known ← typing n.routine.state v
  let type ← type n.routine.state.types known.committed
  let space ← space n.routine.graph.spaces node.address.space
  return {
    name := n.label v
    space := space.name
    offset := node.address.offset
    size := node.size
    type := type.name
    metatype := type.metatype
    locked := known.locked }

/-- The report on a function whose data flow has given components. With `namedOnly`, values without
a name are not listed. -/
def report (n : NamedRoutine) (components : List (List VarnodeId)) (outcome : Option Outcome)
    (namedOnly : Bool) : Checked Report := do
  let coverage ← coverage n.routine
  let distribution ← distribution n.routine
  let cycles ← feedbackCycles n.routine.graph components
  let listed ← observables n.routine.graph
  let values ← (listed.filter fun v => !namedOnly || (n.nameOf? v).isSome).mapM (reportValue n)
  return {
    name := n.routine.graph.name
    outcome := outcome
    progress := n.routine.progress
    exceeded := n.routine.exceeded
    warnings := n.routine.warnings
    coverage := coverage
    distribution := distribution
    cycles := cycles.map (·.map n.label)
    values := values }

/-- The kind of a committed type is found without a fault. -/
theorem committedMetatype_eq (hs : Ready r.graph r.state) (hv : v < r.graph.varnodes.size) :
    committedMetatype r.state v = .ok (r.state.types.metatype (r.state.committed v)) := by
  rw [committedMetatype, committed_eq hs hv, ok_bind, metatype_eq ((hs.valid_of hv).committed v)]

/-- Coverage is counted without a fault. -/
theorem coverage_eq (hs : Ready r.graph r.state) : coverage r = .ok r.coverage := by
  have htyped : filter (fun v => return (← committedMetatype r.state v) ≠ .unknown)
      r.observablesInOrder = .ok (r.observablesInOrder.filter fun v =>
        r.state.types.metatype (r.state.committed v) ≠ .unknown) :=
    filter_eq fun v hv => by
      rw [committedMetatype_eq hs (lt_of_mem_observablesInOrder hv), ok_bind]
      rfl
  have hfixed : filter (locked r.state) r.observablesInOrder =
      .ok (r.observablesInOrder.filter r.state.locked) :=
    filter_eq fun v hv => locked_eq hs (lt_of_mem_observablesInOrder hv)
  rw [coverage, observablesInOrder_eq, ok_bind, htyped, ok_bind, hfixed, ok_bind,
    Routine.coverage, List.countP_eq_length_filter, List.countP_eq_length_filter]
  rfl

/-- Kinds are counted without a fault. -/
theorem distribution_eq (hs : Ready r.graph r.state) : distribution r = .ok r.distribution := by
  rw [distribution, observablesInOrder_eq, ok_bind,
    mapM_eq fun v hv => committedMetatype_eq hs (lt_of_mem_observablesInOrder hv), ok_bind]
  rfl

variable {n : NamedRoutine}

/-- A value is reported without a fault. -/
theorem reportValue_eq (hi : n.routine.graph.Intact) (hs : Ready n.routine.graph n.routine.state)
    (hv : v < n.routine.graph.varnodes.size) : reportValue n v = .ok (n.reportValue v) := by
  have hhas : n.routine.state.types.Has (n.routine.state.typing v).committed :=
    (hs.valid_of hv).committed v
  rw [reportValue, varnode_eq hv, ok_bind, typing_eq hs hv, ok_bind, type_eq hhas, ok_bind,
    space_eq (hi.valueSpaces v hv), ok_bind]
  rfl

/-- A function is reported without a fault, whatever the outcome. -/
theorem report_eq (h : Sound n.routine) {components : List (List VarnodeId)}
    (hc : n.routine.graph.flowGraph.Components components) (outcome : Option Outcome)
    (namedOnly : Bool) :
    report n components outcome namedOnly = .ok (n.report outcome namedOnly) := by
  have hs := h.ready
  have hg := h.wellFormed.graph
  rw [report, coverage_eq hs, ok_bind, distribution_eq hs, ok_bind, feedbackCycles_eq hg hc,
    ok_bind, observables_eq hg, ok_bind, mapM_eq fun v hv => reportValue_eq h.intact hs
      (lt_of_mem_observables hg (List.mem_filter.mp hv).1), ok_bind]
  rfl

end Checked

end TypeRecovery
