import TypeRecovery.Proofs.Description.References

/-!
# Graphs built call by call

A function is built by adding values and ops to it, one after the other. An op is refused when an
operand is missing or its result has a value from elsewhere, and then the function stays as it is.
Whatever was added and refused, the graph is consistent, and so is the graph of every description.
-/

namespace TypeRecovery

namespace Routine

variable {r : Routine}

/-- Something that is added to a function. -/
inductive Addition where
  | varnode (size : Nat) (address : Address)
  | constant (size : Nat) (value : UInt64)
  | input (size : Nat) (address : Address)
  | op (op : Op)
  deriving DecidableEq, Repr

/-- Add a value or an op, which gets the next identifier of its kind. -/
def add (r : Routine) : Addition → Answer Routine Nat
  | .varnode size address => .ok r.graph.varnodes.size (r.newVarnode size address)
  | .constant size value => .ok r.graph.varnodes.size (r.newConstant size value)
  | .input size address => .ok r.graph.varnodes.size (r.newInput size address)
  | .op op => r.tryOp op

/-- The function that an addition leaves behind, whether it succeeds or fails. -/
def attempt (r : Routine) (a : Addition) : Routine := (r.add a).state

/-- The function after some additions. -/
def attempts (r : Routine) (additions : List Addition) : Routine := additions.foldl attempt r

/-- An op is linked into the function that takes it, and leaves any other as it is. -/
theorem attempt_op (r : Routine) (op : Op) :
    r.graph.Accepts op ∧ r.attempt (.op op) = r.modifyGraph (·.linkOp op) ∨
      r.attempt (.op op) = r := by
  rw [attempt, add]
  by_cases h : r.graph.Accepts op
  · rw [tryOp_of_accepts h]
    exact .inl ⟨h, rfl⟩
  · obtain ⟨e, he⟩ := tryOp_of_not_accepts h
    rw [he]
    exact .inr rfl

/-- A function without values is assembled. -/
theorem assembled_empty (name : String) (spaces : SpaceTable) (stack : Nat) (t : TypeTable) :
    (Routine.empty name spaces stack t).graph.Assembled where
  wellFormed := Graph.wellFormed_iff.mpr (by simp [Routine.empty, Graph.byLocation])
  placed := Graph.placed_iff.mpr (by simp [Routine.empty])
  indexed l hl := absurd hl List.not_mem_nil
  ordered := Graph.ordered_empty rfl rfl

/-- Whatever is added or refused, the graph stays in order. -/
theorem assembled_attempt (hr : r.graph.Assembled) (a : Addition) :
    (r.attempt a).graph.Assembled := by
  cases a with
  | varnode size address => exact hr.addVarnode rfl rfl
  | constant size value => exact hr.addVarnode rfl rfl
  | input size address => exact hr.addVarnode rfl rfl
  | op op =>
    rcases r.attempt_op op with ⟨haccepts, heq⟩ | heq
    · rw [heq]
      exact hr.linkOp haccepts
    · rwa [heq]

/-- Additions are attempted on an assembled graph. -/
theorem assembled_attempts (hr : r.graph.Assembled) (additions : List Addition) :
    (r.attempts additions).graph.Assembled :=
  List.foldlRecOn (motive := fun x : Routine => x.graph.Assembled) additions _ hr
    fun _ hx a _ => assembled_attempt hx a

/-- However values and ops are added to the function without values, its graph is consistent. An op
is added exactly when its operands exist and its result exists and is free, and otherwise the
function stays as it is. The graph of every accepted description is consistent too. -/
theorem consistent_graph :
    (∀ name spaces stack types additions,
      ((Routine.empty name spaces stack types).attempts additions).graph.Consistent) ∧
    (∀ (r : Routine) (op : Op),
      (r.graph.Accepts op → ∃ r', r.tryOp op = .ok r.graph.ops.size r' ∧
        r'.graph.ops = r.graph.ops.push op) ∧
      (¬r.graph.Accepts op → ∃ e, r.tryOp op = .error e r)) ∧
    ∀ (d : Description) (n : NamedRoutine), d.build = .ok n → n.routine.graph.Consistent := by
  refine ⟨?_, fun r op => ⟨fun h => ?_, fun h => ?_⟩, fun d n h => ?_⟩
  · intro name spaces stack types additions
    exact (assembled_attempts (assembled_empty name spaces stack types) additions).consistent
  · exact ⟨_, tryOp_of_accepts h, h.linked.ops⟩
  · exact tryOp_of_not_accepts h
  · obtain ⟨names, hnamed⟩ := Description.named_build h
    have hassembled : n.routine.graph.Assembled :=
      ⟨hnamed.wellFormed.graph, hnamed.placed, hnamed.intact.indexed, hnamed.ordered⟩
    exact hassembled.consistent

/-- A loop whose value is doubled on every turn, described by name. -/
def doubling : Description where
  name := "double"
  spaces := [⟨"ram", .processor, 8, 1, false⟩, ⟨"stack", .stack, 8, 1, false⟩]
  stackSpace := "stack"
  varnodes :=
    [{ name := "start", space := "ram", offset := 0, size := 4, input := true },
      { name := "turn", space := "ram", offset := 0, size := 4 },
      { name := "next", space := "ram", offset := 0, size := 4 }]
  ops :=
    [{ opcode := .multiEqual, address := 256, inputs := ["start", "next"], output := some "turn" },
      { opcode := .intAdd, address := 260, inputs := ["turn", "turn"], output := some "next" }]

/-- The same loop built by calls, three of which fail: an input, a value that is written already and
a value that does not exist cannot be written. -/
def doublingCalls : List Addition :=
  [.input 4 ⟨1, 0⟩, .varnode 4 ⟨1, 0⟩, .varnode 4 ⟨1, 0⟩,
    .op { opcode := .multiEqual, address := ⟨1, 256⟩, inputs := [0, 2], output := some 1 },
    .op { opcode := .copy, address := ⟨1, 258⟩, inputs := [1], output := some 0 },
    .op { opcode := .copy, address := ⟨1, 258⟩, inputs := [0], output := some 1 },
    .op { opcode := .copy, address := ⟨1, 258⟩, inputs := [0], output := some 3 },
    .op { opcode := .intAdd, address := ⟨1, 260⟩, inputs := [1, 1], output := some 2 }]

/-- Both ways lead to a consistent graph of three values and two ops, in which the op that reads a
value twice is listed once. -/
theorem doubling_consistent_graph :
    (((Routine.empty "double" .simple 2 (TypeTable.empty 8)).attempts
        doublingCalls).graph.Consistent ∧
      ((Routine.empty "double" .simple 2 (TypeTable.empty 8)).attempts
        doublingCalls).graph.ops.size = 2) ∧
    ∃ n, doubling.build = .ok n ∧ (n.routine.graph.varnode 1).readers = [1] ∧
      n.routine.graph.Consistent := by
  obtain ⟨hcalls, -, hbuilt⟩ := consistent_graph
  refine ⟨⟨hcalls _ _ _ _ _, by decide +kernel⟩, ?_⟩
  have hany : (doubling.build.toOption.any fun n =>
      (n.routine.graph.varnode 1).readers = [1]) = true := by
    decide +kernel
  cases hbuild : doubling.build with
  | error e =>
    rw [hbuild] at hany
    cases hany
  | ok n =>
    rw [hbuild] at hany
    exact ⟨n, rfl, of_decide_eq_true hany, hbuilt _ n hbuild⟩

end Routine

end TypeRecovery
