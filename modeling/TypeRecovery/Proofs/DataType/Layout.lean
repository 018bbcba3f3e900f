import Mathlib.Data.List.Find
import TypeRecovery.Proofs.DataType.Growth

/-!
# Atoms, pointers and components in later tables

During type recovery a table grows only by atoms and pointers. Each function that looks up or
interns types on the way grows the table in this manner, gives a type of the grown table, and gives
the same type again, adding nothing, in every table that extends the grown one.
-/

namespace TypeRecovery

/-- Types without a layout: they are atoms, pointers or void. -/
def DataType.Plain (d : DataType) : Prop :=
  match d.shape with
  | .void | .atom _ | .pointer _ _ => True
  | _ => False

attribute [ext] Interned

/-- The same type, held by another table. -/
def Interned.into (i : Interned) (u : TypeTable) : Interned := ⟨i.id, u⟩

namespace TypeTable

/-- The second table is reached from the first by interning atoms and pointers. -/
abbrev Grows (t u : TypeTable) : Prop := GrowsBy DataType.Plain t u

/-- A type was looked up or interned in a table that grew by atoms and pointers. -/
structure Gives (t : TypeTable) (i : Interned) : Prop where
  /-- The table grew by atoms and pointers. -/
  grows : t.Grows i.table
  /-- The table holds the type. -/
  has : i.table.Has i.id

variable {t u : TypeTable}

/-- A type of a table is given by the table itself. -/
theorem gives_self {id : Nat} (h : t.Has id) : t.Gives ⟨id, t⟩ := ⟨.refl, h⟩

/-- What is given by a table that is given is given. -/
theorem Gives.trans {i j : Interned} (hi : t.Gives i) (hj : i.table.Gives j) : t.Gives j :=
  ⟨hi.grows.trans hj.grows, hj.has⟩

/-! ## Atoms and pointers -/

/-- The type of no value is given by every table. -/
theorem gives_void (t : TypeTable) : t.Gives t.void :=
  ⟨.intern _ .refl trivial (fun _ hc => by cases hc), intern_has t _⟩

/-- The type of no value is found again. -/
theorem void_again (h : t.void.table.Extends u) : u.void = t.void.into u := intern_again h rfl

/-- Atoms are given by every table. -/
theorem gives_atom (t : TypeTable) (size : Nat) (a : Atom) : t.Gives (t.atom size a) :=
  ⟨.intern _ .refl trivial (fun _ hc => by cases hc), intern_has t _⟩

/-- Atoms are found again. -/
theorem atom_again {size : Nat} {a : Atom} (h : (t.atom size a).table.Extends u) :
    u.atom size a = (t.atom size a).into u :=
  intern_again h rfl

/-- Pointers to types of a table are given. -/
theorem gives_pointerSized (size : Nat) {pointee : Nat} (wordSize : Nat) (hp : t.Has pointee) :
    t.Gives (t.pointerSized size pointee wordSize) := by
  refine ⟨.intern _ .refl trivial fun c hc => ?_, intern_has t _⟩
  rw [List.mem_singleton.mp hc]
  exact hp

/-- Pointers are found again. -/
theorem pointerSized_again {size pointee wordSize : Nat}
    (h : (t.pointerSized size pointee wordSize).table.Extends u) :
    u.pointerSized size pointee wordSize = (t.pointerSized size pointee wordSize).into u :=
  intern_again h rfl

/-- An interned pointer has the size, pointee and word size that it was asked for. -/
theorem get_pointerSized (t : TypeTable) (size pointee wordSize : Nat) :
    let i := t.pointerSized size pointee wordSize
    i.table.size i.id = size ∧ i.table.shape i.id = .pointer pointee (max wordSize 1) := by
  have hkey := t.key_intern
    ⟨t.name pointee ++ " *", size, .ptr, .pointer pointee (max wordSize 1), rfl⟩
  change (((t.pointerSized size pointee wordSize).table.get
    (t.pointerSized size pointee wordSize).id).key = .pointer size pointee (max wordSize 1)) at hkey
  dsimp only
  rw [TypeTable.size, shape]
  generalize (t.pointerSized size pointee wordSize).table.get
    (t.pointerSized size pointee wordSize).id = d at hkey ⊢
  unfold DataType.key at hkey
  cases hs : d.shape <;> simp_all

/-- Pointers to unknown bytes are given by every table. -/
theorem gives_blurredPointer (t : TypeTable) (size bytes wordSize : Nat) :
    t.Gives (t.blurredPointer size bytes wordSize) :=
  (t.gives_atom bytes .unknown).trans
    (gives_pointerSized size wordSize (t.gives_atom bytes .unknown).has)

/-- Pointers to unknown bytes are found again. -/
theorem blurredPointer_again {size bytes wordSize : Nat}
    (h : (t.blurredPointer size bytes wordSize).table.Extends u) :
    u.blurredPointer size bytes wordSize = (t.blurredPointer size bytes wordSize).into u := by
  have hbytes := t.gives_atom bytes .unknown
  have hptr := gives_pointerSized size wordSize hbytes.has
  have hfirst : u.unknown bytes = (t.unknown bytes).into u :=
    atom_again (hptr.grows.extends.trans h)
  rw [blurredPointer, hfirst]
  exact pointerSized_again h

/-- The nesting of a type stays the same when the table grows. -/
theorem Extends.nesting (h : t.Extends u) (ht : t.WellFormed) {id : Nat} (hid : t.Has id) :
    u.nesting id = t.nesting id := by
  rw [TypeTable.nesting, TypeTable.nesting, h.pointee? hid]
  cases hp : t.pointee? id with
  | none => rfl
  | some inner =>
    have hinner := ht.has_pointee hid hp
    simp only [h.metatype hinner, h.size hinner, h.size hid]

/-- Pointers that are not nested too deeply are given. -/
theorem gives_pointerNoDepth (size : Nat) {pointee : Nat} (wordSize : Nat) (hp : t.Has pointee) :
    t.Gives (t.pointerNoDepth size pointee wordSize) := by
  rw [pointerNoDepth_eq]
  cases t.nesting pointee with
  | shallow => exact gives_pointerSized size wordSize hp
  | deep => exact t.gives_blurredPointer size _ wordSize
  | full => exact gives_self hp

/-- Pointers that are not nested too deeply are found again. -/
theorem pointerNoDepth_again {size pointee wordSize : Nat} (ht : t.WellFormed)
    (hp : t.Has pointee) (h : (t.pointerNoDepth size pointee wordSize).table.Extends u) :
    u.pointerNoDepth size pointee wordSize = (t.pointerNoDepth size pointee wordSize).into u := by
  have htu := (gives_pointerNoDepth size wordSize hp).grows.extends.trans h
  rw [pointerNoDepth_eq] at h
  rw [pointerNoDepth_eq, pointerNoDepth_eq, htu.nesting ht hp, htu.size hp]
  cases hn : t.nesting pointee with
  | shallow =>
    rw [hn] at h
    exact pointerSized_again h
  | deep =>
    rw [hn] at h
    exact blurredPointer_again h
  | full => rfl

/-- A pointer has the size that it was asked for, unless its pointee stands for it. -/
theorem size_pointerNoDepth (t : TypeTable) (size pointee wordSize : Nat) :
    t.pointerNoDepth size pointee wordSize = ⟨pointee, t⟩ ∧ t.nesting pointee = .full ∨
      (t.pointerNoDepth size pointee wordSize).table.size
        (t.pointerNoDepth size pointee wordSize).id = size := by
  rw [pointerNoDepth_eq]
  cases hn : t.nesting pointee with
  | shallow => exact Or.inr (t.get_pointerSized size pointee wordSize).1
  | deep => exact Or.inr ((t.unknown (t.size pointee)).table.get_pointerSized size _ wordSize).1
  | full => exact Or.inl ⟨rfl, rfl⟩

/-- Building a pointer anew, with the size of the pointer that came out, gives the same pointer. -/
theorem pointerNoDepth_resized {size pointee wordSize : Nat} (ht : t.WellFormed)
    (hp : t.Has pointee) (h : (t.pointerNoDepth size pointee wordSize).table.Extends u) :
    u.pointerNoDepth (u.size (t.pointerNoDepth size pointee wordSize).id) pointee wordSize =
      (t.pointerNoDepth size pointee wordSize).into u := by
  have hgives := gives_pointerNoDepth size wordSize hp
  rcases t.size_pointerNoDepth size pointee wordSize with ⟨he, hfull⟩ | hsize
  · have htu := hgives.grows.extends.trans h
    rw [pointerNoDepth_eq, htu.nesting ht hp, hfull, he]
    rfl
  · rw [h.size hgives.has, hsize]
    exact pointerNoDepth_again ht hp h

/-! ## Components -/

section Pieces

variable {id : Nat}

/-- The types of fields are components of a structure. -/
theorem mem_components_of_struct {fields : List Field} (hs : t.shape id = .struct fields)
    {field : Field} (hf : field ∈ fields) : field.type ∈ (t.shape id).components := by
  rw [hs]
  exact List.mem_map_of_mem hf

/-- The element is a component of an array. -/
theorem mem_components_of_array {element : TypeId} {count : Nat}
    (hs : t.shape id = .array element count) : element ∈ (t.shape id).components := by
  rw [hs]
  exact List.mem_singleton_self _

/-- Which field of an existing structure holds a byte does not depend on later types. -/
theorem Extends.find?_covers (h : t.Extends u) (ht : t.WellFormed) (hid : t.Has id)
    {fields : List Field} (hs : t.shape id = .struct fields) (offset : Nat) :
    fields.find? (u.covers offset) = fields.find? (t.covers offset) := by
  apply List.find?_congr
  intro field hf
  have hfield := ht.has_component hid (mem_components_of_struct hs hf)
  rw [Bool.eq_iff_iff, covers, covers, decide_eq_true_iff, decide_eq_true_iff, fieldEnd, fieldEnd,
    h.size hfield]

/-- Pieces stay the same when the table grows. -/
theorem Extends.pieceBelow (h : t.Extends u) (ht : t.WellFormed) (bound : Nat) (hid : t.Has id)
    (offset size : Nat) :
    u.pieceBelow bound id offset size = t.pieceBelow bound id offset size := by
  induction bound generalizing id offset with
  | zero => rfl
  | succ bound ih =>
    rw [TypeTable.pieceBelow, TypeTable.pieceBelow, h.size hid, h.shape hid]
    congr 2
    cases hs : t.shape id with
    | struct fields =>
      simp only [h.find?_covers ht hid hs]
      cases hf : fields.find? (t.covers offset) with
      | none => rfl
      | some field =>
        exact ih (ht.has_component hid
          (mem_components_of_struct hs (List.mem_of_find?_eq_some hf))) _
    | array element count =>
      have helement := ht.has_component hid (mem_components_of_array hs)
      simp only [h.size helement]
      exact ih helement _
    | _ => rfl

/-- The piece of an existing type does not depend on later types. -/
theorem Extends.exactPiece (h : t.Extends u) (ht : t.WellFormed) (hid : t.Has id)
    (offset size : Nat) : u.exactPiece id offset size = t.exactPiece id offset size :=
  h.pieceBelow ht _ hid offset size

private theorem WellFormed.has_pieceBelow (ht : t.WellFormed) {bound offset size piece : Nat}
    (hid : t.Has id) (h : t.pieceBelow bound id offset size = some piece) : t.Has piece := by
  induction bound generalizing id offset with
  | zero => cases h
  | succ bound ih =>
    rw [pieceBelow] at h
    split at h
    · cases h
      exact hid
    · split at h
      · cases h
      · cases hs : t.shape id with
        | struct fields =>
          simp only [hs] at h
          cases hf : fields.find? (t.covers offset) with
          | none => simp only [hf] at h; cases h
          | some field =>
            simp only [hf] at h
            exact ih (ht.has_component hid
              (mem_components_of_struct hs (List.mem_of_find?_eq_some hf))) h
        | array element count =>
          simp only [hs] at h
          exact ih (ht.has_component hid (mem_components_of_array hs)) h
        | _ => simp only [hs] at h; cases h

/-- A piece of an existing type exists. -/
theorem WellFormed.has_exactPiece (ht : t.WellFormed) {offset size piece : Nat}
    (hid : t.Has id) (h : t.exactPiece id offset size = some piece) : t.Has piece :=
  ht.has_pieceBelow hid h

end Pieces

section Unions

variable {union : Nat}

/-- The best field stays the same when the table grows. -/
theorem Extends.bestFieldFrom (h : t.Extends u) (ht : t.WellFormed) (size : Nat)
    (fields : List Field) (hf : ∀ field ∈ fields, t.Has field.type) (index : Nat)
    (best : Option (Nat × TypeId)) (hb : ∀ b ∈ best, t.Has b.2) :
    u.bestFieldFrom size index best fields = t.bestFieldFrom size index best fields := by
  induction fields generalizing index best with
  | nil => rfl
  | cons field rest ih =>
    have hfield := hf field (List.mem_cons_self ..)
    have hrest : ∀ field ∈ rest, t.Has field.type :=
      fun x hx => hf x (List.mem_cons_of_mem _ hx)
    have hnew : ∀ b ∈ some (index, field.type), t.Has b.2 := by
      rintro b ⟨⟩
      exact hfield
    cases best with
    | none =>
      simp only [TypeTable.bestFieldFrom, h.size hfield, ih hrest _ _ hb, ih hrest _ _ hnew]
    | some b =>
      simp only [TypeTable.bestFieldFrom, h.size hfield, ih hrest _ _ hb, ih hrest _ _ hnew,
        h.moreSpecific ht hfield (hb b rfl)]

/-- The best field of an existing union does not depend on later types. -/
theorem Extends.bestUnionField? (h : t.Extends u) (ht : t.WellFormed) (hu : t.Has union)
    (size : Nat) : u.bestUnionField? union size = t.bestUnionField? union size := by
  rw [TypeTable.bestUnionField?, TypeTable.bestUnionField?, h.unionFields hu,
    h.bestFieldFrom ht size _ (fun _ hf => ht.has_unionField hu hf) 0 none
      (fun _ hb => by cases hb)]

/-- Every union has a field of its own size. -/
def UnionsCovered (t : TypeTable) : Prop :=
  ∀ id : Nat, t.metatype id = .union → ∃ field ∈ t.unionFields id, t.size field.type = t.size id

private theorem metatype_eq_union {id : Nat} (h : t.metatype id = .union) :
    ∃ fields, t.shape id = .union fields := by
  cases hs : t.shape id with
  | union fields => exact ⟨fields, rfl⟩
  | atom a => rw [metatype_of_shape hs] at h; cases a <;> cases h
  | _ => rw [metatype_of_shape hs] at h; cases h

private theorem unionsCovered_iff : t.UnionsCovered ↔ ∀ id < t.types.size, t.metatype id = .union →
    ∃ field ∈ t.unionFields id, t.size field.type = t.size id := by
  constructor
  · exact fun h id _ => h id
  · intro h id hunion
    obtain ⟨fields, hs⟩ := metatype_eq_union hunion
    by_cases hid : t.Has id
    · exact h id hid hunion
    · rw [shape_of_not_has hid] at hs
      cases hs

instance (t : TypeTable) : Decidable t.UnionsCovered := decidable_of_iff' _ unionsCovered_iff

/-- A table that grows by atoms and pointers gets no further unions. -/
theorem GrowsBy.shape_union (h : t.Grows u) {id : Nat} {fields : List Field}
    (hs : u.shape id = .union fields) : t.Has id := by
  induction h with
  | refl =>
    by_contra hid
    rw [shape_of_not_has hid] at hs
    cases hs
  | @intern u d _ hplain _ ih =>
    by_cases hid : u.Has id
    · rw [(intern_extends u d).shape hid] at hs
      exact ih hs
    · cases hf : u.find? d.key with
      | some found =>
        rw [intern_of_find? hf, shape_of_not_has hid] at hs
        cases hs
      | none =>
        rw [intern_of_find?_none hf] at hs
        by_cases hlast : id = u.types.size
        · rw [hlast, shape, get_push] at hs
          rw [DataType.Plain, hs] at hplain
          cases hplain
        · rw [shape_of_not_has (by simp [has_push_iff, hid, hlast])] at hs
          cases hs

/-- Unions stay covered when the table grows. -/
theorem UnionsCovered.grows (hc : t.UnionsCovered) (ht : t.WellFormed) (h : t.Grows u) :
    u.UnionsCovered := by
  intro id hunion
  obtain ⟨fields, hs⟩ := metatype_eq_union hunion
  have hid := h.shape_union hs
  rw [h.extends.metatype hid] at hunion
  obtain ⟨field, hmem, hsize⟩ := hc id hunion
  refine ⟨field, by rw [h.extends.unionFields hid]; exact hmem, ?_⟩
  rw [h.extends.size (ht.has_unionField hid hmem), h.extends.size hid, hsize]

/-- A search among fields of which one is as wide as asked finds one. -/
theorem bestFieldFrom_isSome (t : TypeTable) (size : Nat) (fields : List Field) (index : Nat)
    (best : Option (Nat × TypeId))
    (h : best.isSome = true ∨ ∃ field ∈ fields, t.size field.type = size) :
    (t.bestFieldFrom size index best fields).isSome = true := by
  induction fields generalizing index best with
  | nil =>
    rcases h with hb | ⟨field, hmem, -⟩
    · exact hb
    · cases hmem
  | cons field rest ih =>
    cases best with
    | some b =>
      simp only [bestFieldFrom]
      split
      · exact ih _ _ (Or.inl rfl)
      · split
        · exact ih _ _ (Or.inl rfl)
        · exact ih _ _ (Or.inl rfl)
    | none =>
      simp only [bestFieldFrom]
      split
      · rename_i hsize
        refine ih _ _ (Or.inr ?_)
        rcases h with hb | ⟨x, hmem, hx⟩
        · cases hb
        · rcases List.mem_cons.mp hmem with rfl | hlater
          · exact absurd hx hsize
          · exact ⟨x, hlater, hx⟩
      · exact ih _ _ (Or.inl rfl)

/-- A covered union has a best field. -/
theorem UnionsCovered.bestUnionField?_isSome (hc : t.UnionsCovered) {union : Nat}
    (hunion : t.metatype union = .union) :
    (t.bestUnionField? union (t.size union)).isSome = true := by
  rw [TypeTable.bestUnionField?, Option.isSome_map]
  exact t.bestFieldFrom_isSome _ (t.unionFields union) 0 none (Or.inr (hc union hunion))

/-- A type that has to be resolved is a union or points to one. -/
theorem metatype_of_needsResolution {id : Nat} (h : t.needsResolution id = true) :
    t.metatype ((t.pointee? id).getD id) = .union := by
  rw [needsResolution] at h
  rw [pointee?]
  cases hs : t.shape id with
  | union fields =>
    exact metatype_of_shape hs
  | pointer pointee wordSize =>
    rw [hs] at h
    exact of_decide_eq_true h
  | _ => rw [hs] at h; cases h

end Unions

/-! ## Descents -/

/-- The same descent, with the component held by another table. -/
def Descent.into (d : Descent) (u : TypeTable) : Descent := { d with table := u }

/-- The same landing, with the pointer held by another table. -/
def Landing.into (l : Landing) (u : TypeTable) : Landing := { l with table := u }

section Descents

variable {id ptr pointee offset : Nat}

/-- What is found in a type is given. -/
theorem gives_subType? (ht : t.WellFormed) (hid : t.Has id) {part : Descent}
    (h : t.subType? id offset = some part) : t.Gives ⟨part.id, part.table⟩ := by
  rw [subType?] at h
  cases hs : t.shape id with
  | struct fields =>
    simp only [hs, Option.map_eq_some_iff] at h
    obtain ⟨field, hf, rfl⟩ := h
    exact gives_self (ht.has_component hid
      (mem_components_of_struct hs (List.mem_of_find?_eq_some hf)))
  | array element count =>
    simp only [hs, Option.some.injEq] at h
    subst h
    exact gives_self (ht.has_component hid (mem_components_of_array hs))
  | spacebase space =>
    simp only [hs, Option.some.injEq] at h
    subst h
    exact t.gives_atom 1 .unknown
  | _ => simp only [hs] at h; cases h

private theorem subType?_again (ht : t.WellFormed) (hid : t.Has id) (hu : t.Extends u)
    (hpart : ∀ part, t.subType? id offset = some part → part.table.Extends u) :
    u.subType? id offset = (t.subType? id offset).map (·.into u) := by
  rw [subType?, subType?, hu.shape hid]
  cases hs : t.shape id with
  | struct fields =>
    simp only [hu.find?_covers ht hid hs, Option.map_map]
    rfl
  | array element count =>
    have helement := ht.has_component hid (mem_components_of_array hs)
    simp only [hu.size helement]
    rfl
  | spacebase space =>
    have hbyte : u.unknown 1 = (t.unknown 1).into u := by
      apply atom_again
      apply hpart ⟨(t.unknown 1).id, 0, (t.unknown 1).table⟩
      simp only [subType?, hs]
    simp only [hbyte]
    rfl
  | _ => rfl

private theorem gives_stepInto? (ht : t.WellFormed) (hpointee : t.Has pointee) {down : Descent}
    (h : t.stepInto? ptr pointee offset = some down) : t.Gives ⟨down.id, down.table⟩ := by
  rw [stepInto?] at h
  split at h
  · cases h
  · cases hpart : t.subType? pointee offset with
    | none => simp only [hpart] at h; cases h
    | some part =>
      have hgives := gives_subType? ht hpointee hpart
      have hwf := hgives.grows.wellFormed ht
      simp only [hpart, Option.some.injEq] at h
      subst h
      apply hgives.trans
      apply gives_pointerSized
      split
      · exact hgives.has
      · exact hwf.has_stripArray hgives.has

private theorem stepInto?_again (ht : t.WellFormed) (hptr : t.Has ptr) (hpointee : t.Has pointee)
    (hu : t.Extends u)
    (hdown : ∀ down, t.stepInto? ptr pointee offset = some down → down.table.Extends u) :
    u.stepInto? ptr pointee offset = (t.stepInto? ptr pointee offset).map (·.into u) := by
  by_cases hlarge : UInt32.size ≤ offset
  · simp only [stepInto?, if_pos hlarge, Option.map_none]
  · simp only [stepInto?, if_neg hlarge, hu.metatype hpointee, hu.size hptr, hu.wordSize hptr]
      at hdown ⊢
    cases hpart : t.subType? pointee offset with
    | none =>
      have hagain : u.subType? pointee offset = none := by
        rw [subType?_again ht hpointee hu (fun part hp => by simp [hpart] at hp), hpart]
        rfl
      simp only [hagain, Option.map_none]
    | some part =>
      have hgives := gives_subType? ht hpointee hpart
      simp only [hpart, Option.some.injEq, forall_eq'] at hdown
      generalize htarget : (if t.metatype pointee = .array then part.id
        else part.table.stripArray part.id) = target at hdown ⊢
      have hhas : part.table.Has target := by
        rw [← htarget]
        split
        · exact hgives.has
        · exact (hgives.grows.wellFormed ht).has_stripArray hgives.has
      have hpartu : part.table.Extends u :=
        (gives_pointerSized (t.size ptr) (t.wordSize ptr) hhas).grows.extends.trans hdown
      have hagain : u.subType? pointee offset = some (part.into u) := by
        rw [subType?_again ht hpointee hu (fun p hp => ?_), hpart]
        · rfl
        · rw [hpart, Option.some.injEq] at hp
          exact hp ▸ hpartu
      have hstrip : u.stripArray part.id = part.table.stripArray part.id :=
        hpartu.stripArray hgives.has
      simp only [hagain, Descent.into, hstrip, htarget, Option.map_some, pointerSized_again hdown]
      rfl

/-- A step down from a pointer gives a pointer. -/
theorem gives_downChain? (ht : t.WellFormed) (hptr : t.Has ptr) {wrap : Bool} {down : Descent}
    (h : t.downChain? ptr offset wrap = some down) : t.Gives ⟨down.id, down.table⟩ := by
  rw [downChain?] at h
  cases hp : t.pointee? ptr with
  | none => simp only [hp] at h; cases h
  | some pointee =>
    have hpointee := ht.has_pointee hptr hp
    simp only [hp] at h
    split at h
    · split at h
      · split at h
        · cases h
          exact gives_self hptr
        · exact gives_stepInto? ht hpointee h
      · cases h
    · exact gives_stepInto? ht hpointee h

private theorem downChain?_again (ht : t.WellFormed) (hptr : t.Has ptr) {wrap : Bool}
    (hu : t.Extends u)
    (hdown : ∀ down, t.downChain? ptr offset wrap = some down → down.table.Extends u) :
    u.downChain? ptr offset wrap = (t.downChain? ptr offset wrap).map (·.into u) := by
  rw [downChain?] at hdown
  rw [downChain?, downChain?, hu.pointee? hptr]
  cases hp : t.pointee? ptr with
  | none => rfl
  | some pointee =>
    have hpointee := ht.has_pointee hptr hp
    simp only [hp] at hdown
    simp only [hu.size hpointee, hu.size hptr]
    split
    · rename_i hout
      simp only [if_pos hout] at hdown
      split
      · rename_i hwrap
        simp only [if_pos hwrap] at hdown
        split
        · rfl
        · rename_i hzero
          simp only [if_neg hzero] at hdown
          exact stepInto?_again ht hptr hpointee hu hdown
      · rfl
    · rename_i hin
      simp only [if_neg hin] at hdown
      exact stepInto?_again ht hptr hpointee hu hdown

/-- Descending adds types, and the pointer that it ends with exists. -/
theorem grows_descendBelow (ht : t.WellFormed) (hptr : t.Has ptr) (wrap : Bool) (bound : Nat)
    (offset : Nat) :
    t.Grows (t.descendBelow wrap bound ptr offset).table ∧
      ∀ p ∈ (t.descendBelow wrap bound ptr offset).pointer,
        (t.descendBelow wrap bound ptr offset).table.Has p := by
  induction bound generalizing t ptr offset with
  | zero => exact ⟨.refl, fun p hp => by cases hp⟩
  | succ bound ih =>
    rw [descendBelow]
    cases hd : t.downChain? ptr offset wrap with
    | none => exact ⟨.refl, fun p hp => by cases hp⟩
    | some down =>
      have hgives := gives_downChain? ht hptr hd
      dsimp only
      split
      · refine ⟨hgives.grows, ?_⟩
        rintro p ⟨⟩
        exact hgives.has
      · obtain ⟨hgrows, hhas⟩ := ih (hgives.grows.wellFormed ht) hgives.has down.rest
        exact ⟨hgives.grows.trans hgrows, hhas⟩

private theorem descendBelow_again (ht : t.WellFormed) (hptr : t.Has ptr) (wrap : Bool)
    (bound : Nat) (h : (t.descendBelow wrap bound ptr offset).table.Extends u) :
    u.descendBelow wrap bound ptr offset = (t.descendBelow wrap bound ptr offset).into u := by
  induction bound generalizing t ptr offset with
  | zero => rfl
  | succ bound ih =>
    have hu := (grows_descendBelow ht hptr wrap (bound + 1) offset).1.extends.trans h
    rw [descendBelow] at h
    cases hd : t.downChain? ptr offset wrap with
    | none =>
      have hagain : u.downChain? ptr offset wrap = none := by
        rw [downChain?_again ht hptr hu (fun d hd' => by simp [hd] at hd'), hd]
        rfl
      rw [descendBelow, descendBelow, hagain, hd]
      rfl
    | some down =>
      have hgives := gives_downChain? ht hptr hd
      have hwf := hgives.grows.wellFormed ht
      simp only [hd] at h
      have hdownu : down.table.Extends u := by
        split at h
        · exact h
        · exact (grows_descendBelow hwf hgives.has wrap bound _).1.extends.trans h
      have hagain : u.downChain? ptr offset wrap = some (down.into u) := by
        rw [downChain?_again ht hptr hu (fun d hd' => ?_), hd]
        · rfl
        · rw [hd, Option.some.injEq] at hd'
          exact hd' ▸ hdownu
      rw [descendBelow, descendBelow, hagain, hd]
      change (if down.rest = 0 then _ else _) = _
      by_cases hrest : down.rest = 0
      · simp only [if_pos hrest]
        rfl
      · simp only [if_neg hrest] at h ⊢
        exact ih hwf hgives.has h

/-- Going down from a pointer grows the table by atoms and pointers. -/
theorem grows_descend (ht : t.WellFormed) (hptr : t.Has ptr) (wrap : Bool) (offset : Nat) :
    t.Grows (t.descend wrap ptr offset).table ∧
      ∀ p ∈ (t.descend wrap ptr offset).pointer, (t.descend wrap ptr offset).table.Has p :=
  grows_descendBelow ht hptr wrap _ _

/-- Going down from a pointer once more lands on the same pointer and adds nothing. -/
theorem descend_again (ht : t.WellFormed) (hptr : t.Has ptr) (wrap : Bool) (offset : Nat)
    (h : (t.descend wrap ptr offset).table.Extends u) :
    u.descend wrap ptr offset = (t.descend wrap ptr offset).into u :=
  descendBelow_again ht hptr wrap _ h

end Descents

end TypeTable

end TypeRecovery
