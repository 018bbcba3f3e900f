import Mathlib.Data.List.Forall2
import TypeRecovery.Error

/-!
# Computations that succeed exactly under a condition

A computation that may fail is described by two things: the condition under which it gives a result,
and what is known of the result. Both are found step by step along the computation. In a fold the
condition of each element may depend on those before it.
-/

namespace TypeRecovery

/-- A computation that succeeds exactly under a condition, and with a result that has a property. -/
def Exact {α : Type} (Q : Prop) (R : α → Prop) : Except GraphError α → Prop
  | .ok a => Q ∧ R a
  | .error _ => ¬Q

variable {α β : Type} {Q Q' : Prop} {R : α → Prop} {R' : β → Prop}

/-- A step succeeds exactly under its condition. -/
theorem Exact.ok_iff {x : Except GraphError α} (h : Exact Q R x) : (∃ a, x = .ok a) ↔ Q := by
  cases x with
  | ok a => exact ⟨fun _ => h.1, fun _ => ⟨a, rfl⟩⟩
  | error e =>
    refine ⟨?_, fun hQ => absurd hQ h⟩
    rintro ⟨a, ha⟩
    cases ha

/-- A result of a step has the property. -/
theorem Exact.result {x : Except GraphError α} (h : Exact Q R x) {a : α} (ha : x = .ok a) :
    R a := by
  rw [ha] at h
  exact h.2

/-- The condition may be replaced by an equivalent one. -/
theorem Exact.congr {x : Except GraphError α} (h : Exact Q R x) (hQ : Q ↔ Q') : Exact Q' R x := by
  cases x with
  | ok a => exact ⟨hQ.mp h.1, h.2⟩
  | error e => exact fun hQ' => h (hQ.mpr hQ')

/-- A step that does nothing always succeeds. -/
theorem exact_pure {a : α} (h : R a) : Exact True R (.ok a) := ⟨trivial, h⟩

/-- Two steps succeed if both conditions hold. -/
theorem Exact.bind {x : Except GraphError α} {f : α → Except GraphError β} (hx : Exact Q R x)
    (hf : ∀ a, R a → Exact Q' R' (f a)) : Exact (Q ∧ Q') R' (x >>= f) := by
  cases x with
  | error e => exact fun h => hx h.1
  | ok a =>
    obtain ⟨hQ, hR⟩ := hx
    exact (hf a hR).congr ⟨fun h => ⟨hQ, h⟩, And.right⟩

/-- A computation whose last step cannot fail. -/
theorem Exact.map {x : Except GraphError α} {f : α → β} (hx : Exact Q R x)
    (hf : ∀ a, R a → R' (f a)) : Exact Q R' (x >>= fun a => pure (f a)) :=
  (hx.bind fun a ha => exact_pure (hf a ha)).congr (and_iff_left trivial)

/-- A check before a computation. -/
theorem exact_ite {c : Prop} [Decidable c] {e : GraphError} {x : Except GraphError α}
    (hx : ¬c → Exact Q R x) : Exact (¬c ∧ Q) R (if c then .error e else x) := by
  split
  · rename_i hc
    exact fun h => h.1 hc
  · rename_i hc
    exact (hx hc).congr ⟨fun h => ⟨hc, h⟩, And.right⟩

/-- A check that has to hold for a result. -/
theorem exact_ite_ok {c : Prop} [Decidable c] {e : GraphError} {a : α} (ha : c → R a) :
    Exact c R (if c then .ok a else .error e) := by
  split
  · rename_i hc
    exact ⟨hc, ha hc⟩
  · rename_i hc
    exact hc

/-- Each element of a list satisfies a condition that may depend on those before it. -/
def EachAfter (Q : List α → α → Prop) : List α → List α → Prop
  | _, [] => True
  | done, a :: rest => Q done a ∧ EachAfter Q (done ++ [a]) rest

/-- A fold succeeds exactly if each step does after those before it. -/
theorem exact_foldlM {f : β → α → Except GraphError β} {C : List α → α → Prop}
    {P : List α → β → Prop} (hf : ∀ done a b, P done b → Exact (C done a) (P (done ++ [a])) (f b a))
    {done l : List α} {b : β} (hb : P done b) :
    Exact (EachAfter C done l) (P (done ++ l)) (l.foldlM f b) := by
  induction l generalizing done b with
  | nil => exact exact_pure (by rwa [List.append_nil])
  | cons a rest ih =>
    rw [List.foldlM_cons]
    refine (hf done a b hb).bind fun next hnext => ?_
    have hrest := ih hnext
    rwa [List.append_assoc] at hrest

/-- A step for each member of a list succeeds if all conditions hold. -/
theorem exact_mapM {f : α → Except GraphError β} {C : α → Prop} {S : α → β → Prop}
    (hf : ∀ a, Exact (C a) (S a) (f a)) (l : List α) :
    Exact (∀ a ∈ l, C a) (l.Forall₂ S) (l.mapM f) := by
  induction l with
  | nil => exact (exact_pure List.Forall₂.nil).congr (by simp)
  | cons a rest ih =>
    rw [List.mapM_cons, List.forall_mem_cons]
    exact (hf a).bind fun b hb => ih.map fun bs hbs => .cons hb hbs

/-- A step for an optional part succeeds if the condition holds of the part, should there be one. -/
theorem exact_mapM_option {f : α → Except GraphError β} {C : α → Prop} {S : α → β → Prop}
    (hf : ∀ a, Exact (C a) (S a) (f a)) (x : Option α) :
    Exact (∀ a ∈ x, C a) (Option.Rel S x) (x.mapM f) := by
  cases x with
  | none => exact (exact_pure Option.Rel.none).congr (by simp)
  | some a =>
    rw [Option.mapM_some]
    exact ((hf a).map fun b hb => Option.Rel.some hb).congr (by simp)

variable {C C' : List α → α → Prop} {done l : List α}

/-- Two conditions hold one by one if both do. -/
theorem eachAfter_and : EachAfter (fun done a => C done a ∧ C' done a) done l ↔
    EachAfter C done l ∧ EachAfter C' done l := by
  induction l generalizing done with
  | nil => exact ⟨fun _ => ⟨trivial, trivial⟩, fun _ => trivial⟩
  | cons a rest ih =>
    simp only [EachAfter, ih]
    exact and_and_and_comm

/-- A condition that ignores what came before is a condition on all members. -/
theorem eachAfter_forall {C : α → Prop} :
    EachAfter (fun _ a => C a) done l ↔ ∀ a ∈ l, C a := by
  induction l generalizing done with
  | nil => exact ⟨fun _ => List.forall_mem_nil C, fun _ => trivial⟩
  | cons a rest ih => rw [EachAfter, ih, List.forall_mem_cons]

/-- A fold whose steps keep a property succeeds exactly if no element is refused. -/
theorem exact_foldlM_forall {f : β → α → Except GraphError β} {C : α → Prop} {P : β → Prop}
    (hf : ∀ a b, P b → Exact (C a) P (f b a)) {b : β} (hb : P b) :
    Exact (∀ a ∈ l, C a) P (l.foldlM f b) := by
  have h : Exact (EachAfter (fun _ => C) [] l) P (l.foldlM f b) :=
    exact_foldlM (P := fun _ => P) (fun _ => hf) hb
  exact h.congr eachAfter_forall

/-- No key of an element is among those before it exactly if no key comes twice. -/
theorem eachAfter_notMem (key : α → Option β) :
    EachAfter (fun done a => ∀ x ∈ key a, x ∉ done.filterMap key) done l ↔
      (l.filterMap key).Nodup ∧ ∀ x ∈ l.filterMap key, x ∉ done.filterMap key := by
  induction l generalizing done with
  | nil => simp [EachAfter]
  | cons a rest ih =>
    rw [EachAfter, ih, List.filterMap_append, List.filterMap_cons]
    cases hkey : key a with
    | none => simp [hkey]
    | some x =>
      simp only [List.filterMap_cons, hkey, List.filterMap_nil, List.nodup_cons, List.mem_append,
        List.mem_cons]
      grind

/-- No key came before exactly if all keys are distinct. -/
theorem eachAfter_notMem_map (key : α → β) :
    EachAfter (fun done a => key a ∉ done.map key) [] l ↔ (l.map key).Nodup := by
  have h : EachAfter (fun done a => ∀ x ∈ some (key a), x ∉ done.filterMap fun a => some (key a)) []
      l ↔ _ := eachAfter_notMem fun a => some (key a)
  simpa [List.filterMap_eq_map'] using h

/-- There is room for each member exactly if there is room for all. -/
theorem eachAfter_length {bound : Nat} (h : done.length ≤ bound) :
    EachAfter (fun done _ => done.length < bound) done l ↔ done.length + l.length ≤ bound := by
  induction l generalizing done with
  | nil => exact ⟨fun _ => h, fun _ => trivial⟩
  | cons a rest ih =>
    rw [EachAfter]
    by_cases hlt : done.length < bound
    · rw [ih (by simpa using Nat.succ_le_of_lt hlt), List.length_append, List.length_singleton,
        List.length_cons]
      exact ⟨fun h => by omega, fun h => ⟨hlt, by omega⟩⟩
    · rw [List.length_cons]
      exact ⟨fun h => absurd h.1 hlt, fun h => by omega⟩

end TypeRecovery
