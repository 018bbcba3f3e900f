import TypeRecovery.DataType.Order

/-!
# The order of specificity is a strict total order

Two types are compared by size, metatype, components and age, and the components are compared in
turn down to a fixed depth. Types that agree on size and metatype have components of one kind, so
at every depth the comparison is a lexicographic one, and age separates the types that still agree.
-/

namespace TypeRecovery

open Std

/-- Different metatypes have different ranks. -/
theorem Metatype.rank_injective {m n : Metatype} (h : m.rank = n.rank) : m = n := by
  cases m <;> cases n <;> first | rfl | exact absurd h (by decide)

/-- The components of a shape as fields. A pointer, like an array, has one field at its start. -/
def Shape.parts : Shape → List Field
  | .pointer pointee _ => [⟨0, "", pointee⟩]
  | .array element _ => [⟨0, "", element⟩]
  | .struct fields => fields
  | .union fields => fields
  | _ => []

namespace TypeTable

/-- The stored classification of a type is the one of its shape. -/
theorem metatype_of_shape {t : TypeTable} {id : TypeId} {shape : Shape} (hs : t.shape id = shape) :
    t.metatype id = shape.metatype :=
  hs ▸ (t.get id).agrees

section Fields

variable {order : TypeId → TypeId → Ordering}

/-- Two fields by offset, and then by type. -/
def compareField (order : TypeId → TypeId → Ordering) (x y : Field) : Ordering :=
  (compare x.offset y.offset).then (order x.type y.type)

instance compareField_transCmp [TransCmp order] : TransCmp (compareField order) where
  eq_swap {x y} := by
    rw [compareField, compareField, Ordering.swap_then, ← OrientedOrd.eq_swap,
      ← (OrientedCmp.eq_swap : order x.type y.type = _)]
  isLE_trans {x y z} hxy hyz := by
    have hlex : TransCmp (compareLex (fun x y : Field => compare x.offset y.offset)
        fun x y => order x.type y.type) :=
      have : TransCmp fun x y : Field => compare x.offset y.offset :=
        inferInstanceAs (TransCmp (compareOn Field.offset))
      have : TransCmp fun x y : Field => order x.type y.type :=
        { eq_swap := OrientedCmp.eq_swap, isLE_trans := TransCmp.isLE_trans }
      inferInstance
    exact hlex.isLE_trans hxy hyz

/-- Lists of fields are compared like words of which the longer one comes first. -/
theorem compareFields_eq_compareLex (xs ys : List Field) :
    compareFields order xs ys =
      List.compareLex (fun y x => compareField order x y) ys xs := by
  induction xs generalizing ys with
  | nil => cases ys <;> rfl
  | cons x xs ih =>
    cases ys with
    | nil => rfl
    | cons y ys =>
      rw [compareFields, List.compareLex_cons_cons, ih, compareField, Ordering.then_assoc]

instance compareFields_transCmp [TransCmp order] : TransCmp (compareFields order) := by
  have he : compareFields order =
      fun xs ys => List.compareLex (fun y x => compareField order x y) ys xs := by
    funext xs ys
    exact compareFields_eq_compareLex xs ys
  rw [he]
  have : TransCmp fun y x => compareField order x y := TransCmp.opposite
  exact TransCmp.opposite

instance compareFieldLists_transCmp [TransCmp order] : TransCmp (compareFieldLists order) := by
  have : TransCmp fun xs ys : List Field => compare ys.length xs.length :=
    @TransCmp.opposite _ (compareOn List.length) _
  exact inferInstanceAs (TransCmp (compareLex (fun xs ys : List Field =>
    compare ys.length xs.length) (compareFields order)))

private theorem compareFieldLists_single (p q : TypeId) :
    compareFieldLists order [⟨0, "", p⟩] [⟨0, "", q⟩] = order p q := by
  cases ho : order p q <;> simp [compareFieldLists, compareFields, ho]

/-- Shapes of one metatype are compared by their parts. -/
theorem compareShapes_eq_parts {a b : Shape} (h : a.metatype = b.metatype) :
    compareShapes order a b = compareFieldLists order a.parts b.parts := by
  cases a with
  | pointer p _ =>
    cases b with
    | pointer q _ => exact (compareFieldLists_single p q).symm
    | atom y => cases y <;> cases h
    | _ => cases h
  | array e _ =>
    cases b with
    | array f _ => exact (compareFieldLists_single e f).symm
    | atom y => cases y <;> cases h
    | _ => cases h
  | struct xs =>
    cases b with
    | struct ys => rfl
    | atom y => cases y <;> cases h
    | _ => cases h
  | union xs =>
    cases b with
    | union ys => rfl
    | atom y => cases y <;> cases h
    | _ => cases h
  | atom x =>
    -- an atom has no parts, and neither has any other shape with the metatype of an atom
    have hb : b.parts = [] := by cases b <;> first | rfl | (cases x <;> cases h)
    have hc : compareShapes order (.atom x) b = .eq := by cases b <;> rfl
    rw [hc, hb]
    rfl
  | void =>
    cases b with
    | void => rfl
    | atom y => cases y <;> cases h
    | _ => cases h
  | spacebase _ =>
    cases b with
    | spacebase _ => rfl
    | atom y => cases y <;> cases h
    | _ => cases h

end Fields

variable (t : TypeTable)

instance compareHeads_transCmp : TransCmp t.compareHeads := by
  have : TransCmp fun a b => compare (t.size b) (t.size a) :=
    @TransCmp.opposite _ (compareOn t.size) _
  exact inferInstanceAs (TransCmp (compareLex (fun a b => compare (t.size b) (t.size a))
    (compareOn fun a => (t.metatype a).rank)))

/-- Types that agree on size and metatype have shapes of one kind. -/
theorem metatype_eq_of_compareHeads {t : TypeTable} {a b : TypeId} (h : t.compareHeads a b = .eq) :
    t.size a = t.size b ∧ t.metatype a = t.metatype b := by
  obtain ⟨hs, hm⟩ := Ordering.then_eq_eq.mp h
  exact ⟨(LawfulEqOrd.eq_of_compare hs).symm,
    Metatype.rank_injective (LawfulEqOrd.eq_of_compare hm)⟩

/-- The order that breaks ties of `order` on the parts of two types by their age. -/
def refineBy (order : TypeId → TypeId → Ordering) : TypeId → TypeId → Ordering :=
  compareLex t.compareHeads <|
    compareLex (fun a b => compareFieldLists order (t.shape a).parts (t.shape b).parts) compare

instance refineBy_transCmp (order : TypeId → TypeId → Ordering) [TransCmp order] :
    TransCmp (t.refineBy order) := by
  have : TransCmp fun a b =>
      compareFieldLists order (t.shape a).parts (t.shape b).parts :=
    { eq_swap := OrientedCmp.eq_swap, isLE_trans := TransCmp.isLE_trans }
  exact inferInstanceAs (TransCmp (compareLex _ (compareLex _ _)))

/-- At depth zero the order is lexicographic in size, metatype and age. -/
theorem compareAt_zero : t.compareAt 0 = compareLex t.compareHeads compare := by
  funext a b
  by_cases hab : a = b
  · subst hab
    rw [compareAt, if_pos rfl]
    exact ReflCmp.compare_self.symm
  · rw [compareAt, if_neg hab]
    rfl

/-- One level deeper the order is lexicographic with the parts compared before the age. -/
theorem compareAt_succ (level : Nat) [TransCmp (t.compareAt level)] :
    t.compareAt (level + 1) = t.refineBy (t.compareAt level) := by
  funext a b
  by_cases hab : a = b
  · subst hab
    rw [compareAt, if_pos rfl]
    exact ReflCmp.compare_self.symm
  · rw [compareAt, if_neg hab, refineBy, compareLex, compareLex]
    cases hh : t.compareHeads a b with
    | lt => rfl
    | gt => rfl
    | eq =>
      have hm := (metatype_eq_of_compareHeads hh).2
      rw [metatype_of_shape rfl, metatype_of_shape rfl] at hm
      rw [compareShapes_eq_parts hm]

instance compareAt_transCmp (level : Nat) : TransCmp (t.compareAt level) := by
  induction level with
  | zero =>
    rw [compareAt_zero]
    infer_instance
  | succ level ih =>
    rw [compareAt_succ]
    infer_instance

instance compareAt_lawfulEqCmp (level : Nat) : LawfulEqCmp (t.compareAt level) where
  eq_of_compare {a b} h := by
    cases level with
    | zero =>
      rw [compareAt_zero, compareLex_eq_eq] at h
      exact LawfulEqOrd.eq_of_compare h.2
    | succ level =>
      rw [compareAt_succ, refineBy, compareLex_eq_eq, compareLex_eq_eq] at h
      exact LawfulEqOrd.eq_of_compare h.2.2

instance order_transCmp : TransCmp t.order := t.compareAt_transCmp orderDepth

instance order_lawfulEqCmp : LawfulEqCmp t.order := t.compareAt_lawfulEqCmp orderDepth

variable {t}

@[simp] theorem order_self (t : TypeTable) (a : Nat) : t.order a a = .eq :=
  Std.ReflCmp.compare_self

/-- Comparing the other way round swaps the result. -/
theorem order_swap (t : TypeTable) (a b : Nat) : t.order b a = (t.order a b).swap :=
  OrientedCmp.eq_swap

/-- A type is not more specific than itself. -/
theorem ne_of_order_lt {t : TypeTable} {a b : Nat} (h : t.order a b = .lt) : a ≠ b := by
  rintro rfl
  rw [order_self] at h
  cases h

/-- Types that are not the same are compared strictly. -/
theorem order_lt_of_isLE {t : TypeTable} {a b : Nat} (h : (t.order a b).isLE = true) (hne : a ≠ b) :
    t.order a b = .lt := by
  cases horder : t.order a b with
  | lt => rfl
  | eq => exact absurd (Std.LawfulEqCmp.eq_of_compare horder) hne
  | gt => rw [horder] at h; cases h

/-- Of two types one comes first, or they are equal. -/
theorem isLE_of_order_ne_lt {t : TypeTable} {a b : Nat} (h : t.order a b ≠ .lt) :
    (t.order b a).isLE = true := by
  rw [t.order_swap a b]
  cases horder : t.order a b with
  | lt => exact absurd horder h
  | eq => rfl
  | gt => rfl

/-- A type says strictly more than another exactly when it comes before it. -/
@[simp] theorem moreSpecific_iff {a b : TypeId} :
    t.moreSpecific a b = true ↔ t.order a b = .lt := by
  simp [moreSpecific]

end TypeTable

end TypeRecovery
