import TypeRecovery.Report.Verify

/-!
# What a verification reports

Each kind of violation is reported exactly for the values, or the noted types, that it is about.
-/

namespace TypeRecovery

namespace Routine

variable {r : Routine} {noted : LockedTypes}

/-- The observable values that are listed are all there are. -/
theorem mem_observablesInOrder {v : Nat} : v ∈ r.observablesInOrder ↔
    v < r.graph.varnodes.size ∧ (r.graph.varnode v).isObservable = true := by
  rw [observablesInOrder, List.mem_filter, List.mem_range]

/-- A violation is found in the type of an observable value or in a noted type. -/
theorem mem_violations {x : Violation} : x ∈ (r.verify noted).violations ↔
    (∃ v ∈ r.observablesInOrder, x ∈ r.valueViolations v) ∨
      ∃ y ∈ noted, r.lockViolation? y = some x := by
  rw [verify, List.mem_append, List.mem_flatMap, List.mem_filterMap]

/-- A lock is violated if the committed type is another one. -/
theorem lockViolation?_eq_some {y : VarnodeId × TypeId} {x : Violation} :
    r.lockViolation? y = some x ↔ r.state.committed y.1 ≠ y.2 ∧
      x = .lockedChanged y.1 (r.state.types.name y.2)
        (r.state.types.name (r.state.committed y.1)) := by
  rw [lockViolation?]
  split
  · rename_i hne
    simp only [Option.some.injEq, ne_eq, hne, not_false_eq_true, true_and]
    exact eq_comm
  · rename_i hsame
    simp [hsame]

/-- A temporary type is reported exactly if it differs from the committed type of an observable
value. -/
theorem temporaryDiffers_mem_verify {v : Nat} :
    .temporaryDiffers v ∈ (r.verify noted).violations ↔
      v ∈ r.observablesInOrder ∧ r.state.temporary v ≠ r.state.committed v := by
  simp only [mem_violations, lockViolation?_eq_some, reduceCtorEq, and_false, exists_false,
    or_false]
  constructor
  · rintro ⟨w, hw, hmem⟩
    have hboth : r.state.temporary w ≠ r.state.committed w ∧ v = w := by
      simpa [valueViolations] using hmem
    rw [hboth.2]
    exact ⟨hw, hboth.1⟩
  · rintro ⟨hv, hne⟩
    exact ⟨v, hv, by simp [valueViolations, hne]⟩

/-- A size is reported exactly if the committed type of an observable value has another one. -/
theorem sizeMismatch_mem_verify {v valueSize typeSize : Nat} :
    .sizeMismatch v valueSize typeSize ∈ (r.verify noted).violations ↔
      v ∈ r.observablesInOrder ∧ valueSize = (r.graph.varnode v).size ∧
        typeSize = r.state.types.size (r.state.committed v) ∧ typeSize ≠ valueSize := by
  simp only [mem_violations, lockViolation?_eq_some, reduceCtorEq, and_false, exists_false,
    or_false]
  constructor
  · rintro ⟨w, hw, hmem⟩
    have hall : r.state.types.size (r.state.committed w) ≠ (r.graph.varnode w).size ∧ v = w ∧
        valueSize = (r.graph.varnode w).size ∧
        typeSize = r.state.types.size (r.state.committed w) := by
      simpa [valueViolations] using hmem
    obtain ⟨hne, rfl, rfl, rfl⟩ := hall
    exact ⟨hw, rfl, rfl, hne⟩
  · rintro ⟨hv, rfl, rfl, hne⟩
    exact ⟨v, hv, by simp [valueViolations, hne]⟩

/-- A lock is reported exactly if a noted type is no longer the committed one. -/
theorem lockedChanged_mem_verify {v : Nat} {before after : String} :
    .lockedChanged v before after ∈ (r.verify noted).violations ↔
      ∃ t, (v, t) ∈ noted ∧ r.state.committed v ≠ t ∧ before = r.state.types.name t ∧
        after = r.state.types.name (r.state.committed v) := by
  have hnone (w : Nat) : .lockedChanged v before after ∉ r.valueViolations w := by
    simp [valueViolations]
  simp only [mem_violations, lockViolation?_eq_some, hnone, and_false, exists_false, false_or]
  constructor
  · rintro ⟨⟨w, t⟩, hw, hne, heq⟩
    cases heq
    exact ⟨t, hw, hne, rfl, rfl⟩
  · rintro ⟨t, ht, hne, rfl, rfl⟩
    exact ⟨(v, t), ht, hne, rfl⟩

/-- What is noted of a function are its locked values with their committed types. -/
theorem mem_lockedTypes {v t : Nat} : (v, t) ∈ r.lockedTypes ↔
    v < r.graph.varnodes.size ∧ r.state.locked v = true ∧ r.state.committed v = t := by
  simp only [lockedTypes, List.mem_filterMap, List.mem_range, Option.ite_none_right_eq_some,
    Option.some.injEq, Prod.mk.injEq]
  constructor
  · rintro ⟨w, hw, hlocked, rfl, htype⟩
    exact ⟨hw, hlocked, htype⟩
  · rintro ⟨hv, hlocked, htype⟩
    exact ⟨v, hv, hlocked, rfl, htype⟩

end Routine

end TypeRecovery
