import TypeRecovery.Proofs.Recovery.Stability

/-!
# Convergence is a fixpoint

A round that reports convergence found every observable value committed to the type it came to. So
no value is seen differently by a round after it, the values of pointer steps and the base register
included, and a call that starts afresh comes to the same types.
-/

namespace TypeRecovery

namespace Recovery

open TypeState

variable {g : Graph} {s : TypeState}

/-- Committing values without a change leaves the state as it is. -/
theorem commitValue_foldl_of_unchanged {todo : List VarnodeId} {s : TypeState × Bool}
    (h : (todo.foldl commitValue s).2 = false) : todo.foldl commitValue s = s := by
  induction todo generalizing s with
  | nil => rfl
  | cons v rest ih =>
    rw [List.foldl_cons] at h ⊢
    have hrest := ih h
    rw [hrest] at h ⊢
    obtain ⟨hflag, hnone⟩ := Bool.or_eq_false_iff.mp h
    rw [commitValue, hnone, hflag, commit, hnone]
    exact Prod.ext rfl hflag.symm

/-- A commit that reports no change leaves the types as they are. -/
theorem commitAll_of_unchanged (h : (commitAll g s).2 = false) : commitAll g s = (s, false) :=
  commitValue_foldl_of_unchanged h

end Recovery

namespace Routine

open Recovery TypeState

variable {r : Routine} {c : Config}

/-- A call that reports convergence runs a round in which the commit finds nothing to do. -/
theorem apply_of_converged (h : (r.apply c).outcome = .converged) :
    r.apply c = r.runRound c ∧ r.started = true ∧ 0 < c.maxRounds.toNat ∧
      commitAll r.graph (r.pass c).state = ((r.pass c).state, false) := by
  rw [apply] at h ⊢
  split at h
  · cases h
  · rename_i hstarted
    split at h
    · cases h
    · rename_i hrunning
      split at h
      · cases h
      · rename_i hdue
        rw [if_neg hstarted, if_neg hrunning, if_neg hdue]
        refine ⟨rfl, by simpa using hstarted, by omega, commitAll_of_unchanged ?_⟩
        rw [runRound] at h
        dsimp only at h
        split at h
        · cases h
        · rename_i hunchanged
          exact Bool.eq_false_iff.mpr hunchanged

namespace WellFormed

/-- No round sees what a round changed that reports convergence. -/
theorem repeatable_of_converged (hr : r.WellFormed) (hpos : 0 < r.graph.varnodes.size)
    (hreturns : ∀ op ∈ r.graph.ops, op.opcode = .ret →
      ∀ v ∈ op.inputs, Varnode.annotation (r.graph.varnode v) = false)
    (hunions : r.state.types.UnionsCovered)
    (h : commitAll r.graph (r.pass c).state = ((r.pass c).state, false)) : r.Repeatable c := by
  obtain ⟨hlater, -⟩ := hr.pass_later hpos c
  have hcommitted (v : Nat) :
      (r.runRound c).routine.state.committed v = r.recommended.committed v := by
    rw [state_runRound, h, hlater.committed]
  exact ⟨fun _ v _ _ => hcommitted v, fun base _ => hcommitted base,
    fun v hv => annotation_of_returned hreturns hv, hunions⟩

/-- The pass after a round that reports convergence comes to the same types, counts the same edges
and leaves the commit nothing to do. -/
theorem pass_of_converged (hr : r.WellFormed)
    (hreturns : ∀ op ∈ r.graph.ops, op.opcode = .ret →
      ∀ v ∈ op.inputs, Varnode.annotation (r.graph.varnode v) = false)
    (hunions : r.state.types.UnionsCovered)
    (h : commitAll r.graph (r.pass c).state = ((r.pass c).state, false)) :
    commitAll (r.runRound c).routine.graph ((r.runRound c).routine.pass c).state =
        ((r.runRound c).routine.state, false) ∧
      ((r.runRound c).routine.pass c).stats = (r.pass c).stats := by
  by_cases hpos : 0 < r.graph.varnodes.size
  · have hrepeatable := hr.repeatable_of_converged hpos hreturns hunions h
    exact ⟨hr.commitAll_pass_runRound hpos hrepeatable, (hr.pass_mirrors hpos hrepeatable).stats⟩
  · -- Without values the round only hands the state on.
    have hempty := Nat.eq_zero_of_not_pos hpos
    have hnone : r.graph.observables = [] := observables_of_empty hr.graph hempty
    have hpass (r' : Routine) (hgraph : r'.graph = r.graph) :
        r'.pass c = { state := r'.recommended } := by
      rw [pass, hgraph, recover_of_empty c hr.graph hempty]
    have hagain := (hr.runRound c).state_runRound_of_empty (by rw [graph_runRound]; exact hempty) c
    rw [state_runRound, graph_runRound] at hagain
    rw [graph_runRound]
    refine ⟨Prod.ext hagain ?_, ?_⟩
    · rw [commitAll, hnone]
      rfl
    · rw [hpass _ graph_runRound, hpass r rfl]

/-- Convergence is a fixpoint of the round: if a call reports convergence, a call that starts afresh
reports it again, leaves every type as it is, and counts the same edges. -/
theorem converged_after_reset (hr : r.WellFormed)
    (hreturns : ∀ op ∈ r.graph.ops, op.opcode = .ret →
      ∀ v ∈ op.inputs, Varnode.annotation (r.graph.varnode v) = false)
    (hunions : r.state.types.UnionsCovered) (h : (r.apply c).outcome = .converged) :
    ((r.apply c).routine.reset.apply c).outcome = .converged ∧
      ((r.apply c).routine.reset.apply c).routine.state = (r.apply c).routine.state ∧
      ((r.apply c).routine.reset.apply c).routine.progress.stats =
        (r.apply c).routine.progress.stats := by
  obtain ⟨hround, hstarted, hrounds, hcommit⟩ := apply_of_converged h
  obtain ⟨hagain, hstats⟩ := hr.pass_of_converged hreturns hunions hcommit
  have hprogress : (r.runRound c).routine.progress.stats = (r.pass c).stats := by
    rw [runRound_of_commitAll hcommit]
    rfl
  have hstarted' : (r.runRound c).routine.started = true := by
    rw [runRound_of_commitAll hcommit]
    exact hstarted
  rw [hround, hprogress, ← hstats]
  generalize (r.runRound c).routine = r' at hagain hstarted'
  -- Starting afresh touches neither the graph nor the types, which are all that a pass sees.
  have hreset : commitAll r'.reset.graph (r'.reset.pass c).state = (r'.state, false) := hagain
  have hcall : r'.reset.apply c = r'.reset.runRound c := by
    rw [Routine.apply, show r'.reset.started = true from hstarted']
    exact if_neg (Nat.not_le_of_lt hrounds)
  rw [hcall, runRound_of_commitAll hreset]
  exact ⟨rfl, rfl, rfl⟩

end WellFormed

/-- A pointer out of a union is followed through a field and a step, and what is behind it is
returned. The first round types all of it, the values of the two pointer steps included. -/
def followed : Routine :=
  let types := (TypeTable.empty 8).perform (.base 8 .int) |>.perform (.base 4 .int)
    |>.perform (.pointer 1 1) |>.perform (.struct "node" 16 [⟨0, "n", 1⟩, ⟨8, "p", 2⟩])
    |>.perform (.pointer 3 1) |>.perform (.union "u" 8 [⟨0, "n", 0⟩, ⟨0, "p", 4⟩])
  let values := (Routine.empty "f" .simple 2 types).newInput 8 ⟨1, 0⟩ |>.newConstant 8 8
    |>.newConstant 8 4 |>.newVarnode 8 ⟨1, 8⟩ |>.newVarnode 8 ⟨1, 16⟩ |>.newVarnode 8 ⟨1, 24⟩
    |>.newVarnode 8 ⟨1, 32⟩ |>.newVarnode 4 ⟨1, 40⟩
  (values.modifyState fun s => s.lock 0 5).modifyGraph fun g =>
    g.linkOp { opcode := .copy, address := ⟨1, 0⟩, inputs := [0], output := some 3 }
      |>.linkOp { opcode := .ptrSub, address := ⟨1, 1⟩, inputs := [3, 1], output := some 4 }
      |>.linkOp { opcode := .load, address := ⟨1, 2⟩, inputs := [1, 4], output := some 5 }
      |>.linkOp { opcode := .ptrAdd, address := ⟨1, 3⟩, inputs := [5, 1, 2], output := some 6 }
      |>.linkOp { opcode := .load, address := ⟨1, 4⟩, inputs := [1, 6], output := some 7 }
      |>.linkOp { opcode := .ret, address := ⟨1, 5⟩, inputs := [2, 7], output := none }

/-- The followed function converges again after a reset. -/
theorem followed_converged_after_reset :
    (followed.apply {}).outcome = .changed 1 ∧
      ((followed.apply {}).routine.apply {}).outcome = .converged ∧
      (((followed.apply {}).routine.apply {}).routine.reset.apply {}).outcome = .converged ∧
      (((followed.apply {}).routine.apply {}).routine.reset.apply {}).routine.state =
        ((followed.apply {}).routine.apply {}).routine.state := by
  have hfollowed : followed.WellFormed := by decide +kernel
  have hfirst : (followed.apply {}).outcome = .changed 1 := by decide +kernel
  have hsecond : ((followed.apply {}).routine.apply {}).outcome = .converged := by decide +kernel
  obtain ⟨hagain, hstate, -⟩ := (hfollowed.apply {}).converged_after_reset (by decide +kernel)
    (by decide +kernel) hsecond
  exact ⟨hfirst, hsecond, hagain, hstate⟩

end Routine

end TypeRecovery
