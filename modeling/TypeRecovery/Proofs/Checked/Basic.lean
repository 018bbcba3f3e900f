import TypeRecovery.Proofs.Graph.References

/-!
# Checked runs

The functions of this library are total: a position without an entry reads as a stand-in, numbers
have no upper end, and division by zero gives a number. A checked run computes as a machine does. It
reads entries that are there, its sums and differences fit their words, and its divisors are not
zero, or else it ends with a fault.

Checked runs are defined function by function, after the total functions and under their names. For
each of them a lemma shows that it gives the result of the total function when the positions it
starts from have entries. So where the total functions are called in this way they use no stand-in,
and their arithmetic is that of machine words.
-/

namespace TypeRecovery

/-- What ends a checked run. -/
inductive Fault where
  /-- A position without an entry was read. -/
  | missing
  /-- A number does not fit its word. -/
  | overflow
  /-- A divisor is zero. -/
  | zeroDivisor
  /-- A range starts after its end. -/
  | reversed
  deriving DecidableEq, Repr

/-- A run that ends with a result or with a fault. -/
abbrev Checked (α : Type) := Except Fault α

namespace Checked

variable {α β : Type}

/-! ## Steps -/

/-- The entry at a position. -/
def look (entries : Array α) (position : Nat) : Checked α :=
  match entries[position]? with
  | some entry => .ok entry
  | none => .error .missing

/-- The member at a position of a list. -/
def pick (members : List α) (position : Nat) : Checked α :=
  match members[position]? with
  | some member => .ok member
  | none => .error .missing

/-- A number that has to be less than `bound`. -/
def within (bound number : Nat) : Checked Nat :=
  if number < bound then .ok number else .error .overflow

/-- The difference of two numbers, of which the second must not exceed the first. -/
def sub (a b : Nat) : Checked Nat := if b ≤ a then .ok (a - b) else .error .overflow

/-- The remainder of a division. -/
def mod (a b : Nat) : Checked Nat := if b = 0 then .error .zeroDivisor else .ok (a % b)

/-- The second of two comparisons is made only when the first does not decide. -/
def andThen (first : Ordering) (second : Checked Ordering) : Checked Ordering :=
  match first with
  | .eq => second
  | decided => .ok decided

/-- There is no fault within the bounds of an array. -/
theorem look_eq {entries : Array α} {position : Nat} (h : position < entries.size) :
    look entries position = .ok entries[position] := by
  rw [look, Array.getElem?_eq_getElem h]

/-- There is no fault where a list has a member. -/
theorem pick_eq {members : List α} {position : Nat} {member : α}
    (h : members[position]? = some member) : pick members position = .ok member := by
  rw [pick, h]

/-- There is no fault below the bound. -/
theorem within_eq {bound number : Nat} (h : number < bound) :
    within bound number = .ok number := if_pos h

/-- There is no fault if the difference is not negative. -/
theorem sub_eq {a b : Nat} (h : b ≤ a) : sub a b = .ok (a - b) := if_pos h

/-- There is no fault if the divisor is positive. -/
theorem mod_eq {a b : Nat} (h : 0 < b) : mod a b = .ok (a % b) := if_neg (Nat.ne_of_gt h)

@[simp] theorem andThen_ok (first second : Ordering) :
    andThen first (.ok second) = .ok (first.then second) := by
  cases first <;> rfl

/-- A run goes on with the result of its first part. -/
@[simp] theorem ok_bind (a : α) (f : α → Checked β) : ((.ok a : Checked α) >>= f) = f a := rfl

@[simp] theorem pure_eq_ok (a : α) : (pure a : Checked α) = .ok a := rfl

/-! ## Loops -/

/-- A loop gives the result of the fold if each of its rounds gives the result of the step, as long
as the steps keep what the rounds need. -/
theorem foldlM_eq {P : β → Prop} {f : β → α → Checked β} {k : β → α → β} {l : List α} {b : β}
    (hb : P b) (h : ∀ a ∈ l, ∀ b, P b → f b a = .ok (k b a) ∧ P (k b a)) :
    l.foldlM f b = .ok (l.foldl k b) ∧ P (l.foldl k b) := by
  induction l generalizing b with
  | nil => exact ⟨rfl, hb⟩
  | cons a rest ih =>
    obtain ⟨hf, hstep⟩ := h a List.mem_cons_self b hb
    rw [List.foldlM_cons, hf, ok_bind, List.foldl_cons]
    exact ih hstep fun x hx => h x (List.mem_cons_of_mem a hx)

/-- A list is mapped without a fault if each member is. -/
theorem mapM_eq {f : α → Checked β} {g : α → β} {l : List α} (h : ∀ a ∈ l, f a = .ok (g a)) :
    l.mapM f = .ok (l.map g) := by
  induction l with
  | nil => rfl
  | cons a rest ih =>
    rw [List.mapM_cons, h a List.mem_cons_self, ok_bind,
      ih fun x hx => h x (List.mem_cons_of_mem a hx)]
    rfl

/-- A member is found without a fault if each one can be tested. -/
theorem findM?_eq {p : α → Checked Bool} {q : α → Bool} {l : List α}
    (h : ∀ a ∈ l, p a = .ok (q a)) : l.findM? p = .ok (l.find? q) := by
  induction l with
  | nil => rfl
  | cons a rest ih =>
    rw [List.findM?, h a List.mem_cons_self, ok_bind, List.find?_cons]
    cases q a with
    | true => rfl
    | false => exact ih fun x hx => h x (List.mem_cons_of_mem a hx)

/-- The members of a list that pass a test. -/
def filter (p : α → Checked Bool) : List α → Checked (List α)
  | [] => .ok []
  | a :: rest => do
    let kept ← p a
    let others ← filter p rest
    return if kept then a :: others else others

/-- A list is filtered without a fault if each member can be tested. -/
theorem filter_eq {p : α → Checked Bool} {q : α → Bool} {l : List α}
    (h : ∀ a ∈ l, p a = .ok (q a)) : filter p l = .ok (l.filter q) := by
  induction l with
  | nil => rfl
  | cons a rest ih =>
    rw [filter, h a List.mem_cons_self, ok_bind, ih fun x hx => h x (List.mem_cons_of_mem a hx),
      ok_bind, List.filter_cons, pure_eq_ok]

/-- The results of a computation on the members of a list that has no result for some of them. -/
def filterMap (f : α → Checked (Option β)) (l : List α) : Checked (List β) := do
  let found ← l.mapM f
  return found.filterMap id

/-- A list is filtered and mapped without a fault if each member is. -/
theorem filterMap_eq {f : α → Checked (Option β)} {g : α → Option β} {l : List α}
    (h : ∀ a ∈ l, f a = .ok (g a)) : filterMap f l = .ok (l.filterMap g) := by
  rw [filterMap, mapM_eq h, ok_bind, List.filterMap_map]
  rfl

end Checked

end TypeRecovery
