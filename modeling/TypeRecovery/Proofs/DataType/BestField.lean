import TypeRecovery.Proofs.DataType.Layout

/-!
# The best field of a union

The search for the best field of a size looks at the fields in order and keeps the more specific of
two. It ends with a field of that size such that no other one of that size is more specific. The
field that stands for a union is the best one among those as wide as the union.
-/

namespace TypeRecovery

namespace TypeTable

variable {t u : TypeTable}

/-- The position of the best field of a union among those as wide as the union. -/
def ownField? (t : TypeTable) (union : TypeId) : Option Nat :=
  t.bestUnionField? union (t.size union)

/-- A field as wide as its union, such that no field of that width is more specific. -/
structure FitsUnion (t : TypeTable) (union : TypeId) (field : Field) : Prop where
  /-- The field is a field of the union. -/
  mem : field ∈ t.unionFields union
  /-- It is as wide as the union. -/
  size : t.size field.type = t.size union
  /-- No other such field is more specific. -/
  best : ∀ other ∈ t.unionFields union, t.size other.type = t.size union →
    t.moreSpecific other.type field.type = false

/-- The best of the fields with a size, with its position, or none if no field has the size. -/
def IsBest (t : TypeTable) (size : Nat) (fields : List Field) : Option (Nat × TypeId) → Prop
  | none => ∀ field ∈ fields, t.size field.type ≠ size
  | some (index, type) =>
    (∃ field, fields[index]? = some field ∧ field.type = type ∧ t.size type = size) ∧
      ∀ field ∈ fields, t.size field.type = size → t.moreSpecific field.type type = false

section IsBest

variable {size : Nat} {fields : List Field} {field : Field} {best : Option (Nat × TypeId)}

/-- The best field stays the best if a field is added that is not more specific or has another
size. -/
theorem IsBest.keep {index type : Nat} (h : t.IsBest size fields (some (index, type)))
    (hfield : t.size field.type = size → t.moreSpecific field.type type = false) :
    t.IsBest size (fields ++ [field]) (some (index, type)) := by
  obtain ⟨⟨found, hfound, htype⟩, hall⟩ := h
  have hlt := (List.getElem?_eq_some_iff.mp hfound).1
  refine ⟨⟨found, (List.getElem?_append_left hlt).trans hfound, htype⟩, ?_⟩
  intro other hother hwidth
  rcases List.mem_append.mp hother with hold | hnew
  · exact hall other hold hwidth
  · rw [List.mem_singleton.mp hnew] at hwidth ⊢
    exact hfield hwidth

/-- A field of another size changes nothing about the best one. -/
theorem IsBest.skip (h : t.IsBest size fields best) (hsize : t.size field.type ≠ size) :
    t.IsBest size (fields ++ [field]) best := by
  cases best with
  | none =>
    intro other hother
    rcases List.mem_append.mp hother with hold | hnew
    · exact h other hold
    · rw [List.mem_singleton.mp hnew]
      exact hsize
  | some best => exact h.keep fun hwidth => absurd hwidth hsize

/-- A more specific field of the size becomes the best one. -/
theorem IsBest.take (h : t.IsBest size fields best) (hsize : t.size field.type = size)
    (hmore : ∀ index type, best = some (index, type) →
      t.moreSpecific field.type type = true) :
    t.IsBest size (fields ++ [field]) (some (fields.length, field.type)) := by
  refine ⟨⟨field, by simp, rfl, hsize⟩, fun other hother hwidth => ?_⟩
  rcases List.mem_append.mp hother with hold | hnew
  · cases best with
    | none => exact absurd hwidth (h other hold)
    | some best =>
      -- a more specific field would also be more specific than the best one so far
      have hless := (moreSpecific_iff ..).mp (hmore best.1 best.2 rfl)
      refine Bool.eq_false_iff.mpr fun hother' => ?_
      have htrans := (moreSpecific_iff ..).mpr
        (Std.TransCmp.lt_trans ((moreSpecific_iff ..).mp hother') hless)
      rw [h.2 other hold hwidth] at htrans
      cases htrans
  · rw [List.mem_singleton.mp hnew]
    refine Bool.eq_false_iff.mpr fun hself => ?_
    exact ne_of_order_lt ((moreSpecific_iff ..).mp hself) rfl

end IsBest

/-- The search goes on from the best field of those that are done to the best one of all. -/
theorem bestFieldFrom_isBest (t : TypeTable) (size : Nat) (rest : List Field)
    {done : List Field} {best : Option (Nat × TypeId)} (h : t.IsBest size done best) :
    t.IsBest size (done ++ rest) (t.bestFieldFrom size done.length best rest) := by
  induction rest generalizing done best with
  | nil =>
    rw [List.append_nil]
    cases best with
    | none => exact h
    | some best => exact h
  | cons field rest ih =>
    have hnext {best' : Option (Nat × TypeId)} (h' : t.IsBest size (done ++ [field]) best') :
        t.IsBest size (done ++ field :: rest)
          (t.bestFieldFrom size (done.length + 1) best' rest) := by
      have hlast := ih h'
      rw [List.append_assoc, List.length_append] at hlast
      exact hlast
    cases best with
    | none =>
      simp only [bestFieldFrom]
      split
      · rename_i hsize
        exact hnext (h.skip hsize)
      · rename_i hsize
        exact hnext (h.take (Decidable.of_not_not hsize) fun _ _ hnone => by cases hnone)
    | some best =>
      simp only [bestFieldFrom]
      split
      · rename_i hsize
        exact hnext (h.skip hsize)
      · rename_i hsize
        split
        · rename_i hmore
          refine hnext (h.take (Decidable.of_not_not hsize) fun _ _ hsome => ?_)
          cases hsome
          exact hmore
        · rename_i hmore
          exact hnext (h.keep fun _ => Bool.eq_false_iff.mpr hmore)

/-- The field that a union stands for fits it. -/
theorem fits_of_ownField? {union index : Nat} (h : t.ownField? union = some index) :
    ∃ field, (t.unionFields union)[index]? = some field ∧ t.FitsUnion union field := by
  have hnone : t.IsBest (t.size union) [] none := fun _ hf => by cases hf
  have hbest := t.bestFieldFrom_isBest (t.size union) (t.unionFields union) hnone
  obtain ⟨⟨index', type⟩, hfound, rfl⟩ := Option.map_eq_some_iff.mp h
  rw [List.length_nil, hfound] at hbest
  obtain ⟨⟨field, hfield, rfl, hsize⟩, hall⟩ := hbest
  exact ⟨field, hfield, List.mem_of_getElem? hfield, hsize, hall⟩

/-- A union stands for a field if it has one of its size. -/
theorem ownField?_isSome {union : Nat}
    (h : ∃ field ∈ t.unionFields union, t.size field.type = t.size union) :
    (t.ownField? union).isSome = true := by
  rw [ownField?, bestUnionField?, Option.isSome_map]
  exact t.bestFieldFrom_isSome _ _ 0 none (Or.inr h)

/-- The field that a union stands for stays the same when the table is extended. -/
theorem Extends.ownField? (h : t.Extends u) (ht : t.WellFormed) {union : Nat}
    (hunion : t.Has union) : u.ownField? union = t.ownField? union := by
  rw [TypeTable.ownField?, TypeTable.ownField?, h.size hunion, h.bestUnionField? ht hunion]

end TypeTable

end TypeRecovery
