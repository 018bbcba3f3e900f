import TypeRecovery.Proofs.DataType.Layout

/-!
# Sizes of data types

What the size of a type is that was interned, found as a piece of another type, or reached by
following a pointer. The order of specificity never puts a narrower type before a wider one, and
atoms and pointers that are added to a table leave its unions as wide as their fields.
-/

namespace TypeRecovery

namespace TypeTable

variable {t u : TypeTable} {id a b : Nat}

/-! ## The order of specificity -/

/-- Size and metatype come first in the order, whatever the depth of comparison. -/
theorem isLE_compareHeads_of_compareAt_lt {level : Nat} (h : t.compareAt level a b = .lt) :
    (t.compareHeads a b).isLE = true := by
  obtain ⟨rest, hrest⟩ : ∃ rest, (t.compareHeads a b).then rest = .lt := by
    cases level with
    | zero =>
      rw [compareAt] at h
      split at h
      · cases h
      · exact ⟨_, h⟩
    | succ level =>
      rw [compareAt] at h
      split at h
      · cases h
      · exact ⟨_, h⟩
  rcases Ordering.then_eq_lt.mp hrest with hlt | ⟨heq, -⟩
  · rw [hlt]
    rfl
  · rw [heq]
    rfl

/-- Of two types the more specific one is at least as wide, whatever the depth of comparison. -/
theorem size_le_of_compareAt_lt {level : Nat} (h : t.compareAt level a b = .lt) :
    t.size b ≤ t.size a := by
  have hheads := isLE_compareHeads_of_compareAt_lt h
  rw [compareHeads, Ordering.isLE_then_iff_and] at hheads
  exact Nat.isLE_compare.mp hheads.1

/-- A more specific type is at least as wide. -/
theorem size_le_of_order_lt (h : t.order a b = .lt) : t.size b ≤ t.size a :=
  size_le_of_compareAt_lt h

/-! ## Atoms and pieces -/

/-- An atom has the size that it was asked for. -/
theorem size_atom (t : TypeTable) (size : Nat) (a : Atom) :
    (t.atom size a).table.size (t.atom size a).id = size := by
  have hkey := t.key_intern ⟨a.typeName size, size, a.metatype, .atom a, rfl⟩
  change ((t.atom size a).table.get (t.atom size a).id).key = .atom size a at hkey
  rw [TypeTable.size]
  generalize (t.atom size a).table.get (t.atom size a).id = d at hkey ⊢
  unfold DataType.key at hkey
  cases hs : d.shape <;> simp_all

/-- A piece has the size that it was asked for. -/
theorem size_pieceBelow {bound offset size piece : Nat}
    (h : t.pieceBelow bound id offset size = some piece) : t.size piece = size := by
  induction bound generalizing id offset with
  | zero => cases h
  | succ bound ih =>
    rw [pieceBelow] at h
    split at h
    · rename_i hwhole
      cases h
      exact hwhole.2.symm
    · split at h
      · cases h
      · cases hs : t.shape id with
        | struct fields =>
          simp only [hs] at h
          cases hf : fields.find? (t.covers offset) with
          | none => simp only [hf] at h; cases h
          | some field =>
            simp only [hf] at h
            exact ih h
        | array element count =>
          simp only [hs] at h
          exact ih h
        | _ => simp only [hs] at h; cases h

/-- A piece has the size that was asked for. -/
theorem size_exactPiece {offset size piece : Nat} (h : t.exactPiece id offset size = some piece) :
    t.size piece = size :=
  size_pieceBelow h

/-! ## Pointers -/

/-- An interned type is a pointer of a given size. -/
structure IsPointer (i : Interned) (size : Nat) : Prop where
  /-- It is a pointer. -/
  metatype : i.table.metatype i.id = .ptr
  /-- It has the size. -/
  size : i.table.size i.id = size

/-- What points to something is a pointer. -/
theorem metatype_of_pointee? {p : Nat} (h : t.pointee? id = some p) : t.metatype id = .ptr := by
  obtain ⟨w, hw⟩ := pointee?_eq_some_iff.mp h
  exact metatype_of_shape hw

/-- A pointer is a pointer of its own size. -/
theorem isPointer_self {p : Nat} (h : t.pointee? id = some p) : IsPointer ⟨id, t⟩ (t.size id) :=
  ⟨metatype_of_pointee? h, rfl⟩

/-- A sized pointer is a pointer of that size. -/
theorem isPointer_pointerSized (t : TypeTable) (size pointee wordSize : Nat) :
    IsPointer (t.pointerSized size pointee wordSize) size := by
  obtain ⟨hsize, hshape⟩ := t.get_pointerSized size pointee wordSize
  exact ⟨metatype_of_shape hshape, hsize⟩

/-- A pointer to unknown bytes is a pointer of the size that it was asked for. -/
theorem isPointer_blurredPointer (t : TypeTable) (size bytes wordSize : Nat) :
    IsPointer (t.blurredPointer size bytes wordSize) size :=
  isPointer_pointerSized _ size _ wordSize

/-- What stands in for deeper pointers is a pointer. -/
theorem pointee?_of_nesting_full (h : t.nesting id = .full) : ∃ p, t.pointee? id = some p := by
  rw [nesting] at h
  cases hp : t.pointee? id with
  | none => rw [hp] at h; cases h
  | some p => exact ⟨p, rfl⟩

/-- A pointer that never nests three pointers is a pointer, and if it does not have the size that
was asked for then it is its own pointee. -/
theorem isPointer_pointerNoDepth (t : TypeTable) (size pointee wordSize : Nat) :
    IsPointer (t.pointerNoDepth size pointee wordSize) size ∨
      t.pointerNoDepth size pointee wordSize = ⟨pointee, t⟩ ∧ t.metatype pointee = .ptr := by
  rw [pointerNoDepth_eq]
  cases hn : t.nesting pointee with
  | shallow => exact Or.inl (t.isPointer_pointerSized size pointee wordSize)
  | deep => exact Or.inl (t.isPointer_blurredPointer size _ wordSize)
  | full =>
    obtain ⟨p, hp⟩ := pointee?_of_nesting_full hn
    exact Or.inr ⟨rfl, metatype_of_pointee? hp⟩

section Descents

variable {ptr pointee offset : Nat} {wrap : Bool} {down : Descent}

/-- Stepping into a component gives a pointer as wide as the one before. -/
theorem isPointer_stepInto? (h : t.stepInto? ptr pointee offset = some down) :
    IsPointer ⟨down.id, down.table⟩ (t.size ptr) := by
  rw [stepInto?] at h
  split at h
  · cases h
  · cases hpart : t.subType? pointee offset with
    | none => simp only [hpart] at h; cases h
    | some part =>
      simp only [hpart, Option.some.injEq] at h
      subst h
      exact isPointer_pointerSized ..

/-- One level down from a pointer is a pointer of the same size. -/
theorem isPointer_downChain? (h : t.downChain? ptr offset wrap = some down) :
    IsPointer ⟨down.id, down.table⟩ (t.size ptr) := by
  rw [downChain?] at h
  cases hp : t.pointee? ptr with
  | none => simp only [hp] at h; cases h
  | some pointee =>
    simp only [hp] at h
    split at h
    · split at h
      · split at h
        · cases h
          exact isPointer_self hp
        · exact isPointer_stepInto? h
      · cases h
    · exact isPointer_stepInto? h

/-- A descent lands on a pointer as wide as the one that it started from. -/
theorem isPointer_descendBelow {bound p : Nat}
    (h : (t.descendBelow wrap bound ptr offset).pointer = some p) :
    IsPointer ⟨p, (t.descendBelow wrap bound ptr offset).table⟩ (t.size ptr) := by
  induction bound generalizing t ptr offset with
  | zero => cases h
  | succ bound ih =>
    rw [descendBelow] at h ⊢
    cases hd : t.downChain? ptr offset wrap with
    | none => simp only [hd] at h; cases h
    | some down =>
      have hdown := isPointer_downChain? hd
      simp only [hd] at h ⊢
      split at h
      · cases h
        rw [if_pos ‹_›]
        exact hdown
      · rw [if_neg ‹_›, ← hdown.size]
        exact ih h

/-- Following a pointer all the way down leads to a pointer of the same size. -/
theorem isPointer_descend {p : Nat} (h : (t.descend wrap ptr offset).pointer = some p) :
    IsPointer ⟨p, (t.descend wrap ptr offset).table⟩ (t.size ptr) :=
  isPointer_descendBelow h

end Descents

/-! ## Unions -/

/-- No field of a union is wider than the union. -/
def UnionsFit (t : TypeTable) : Prop :=
  ∀ id : Nat, ∀ field ∈ t.unionFields id, t.size field.type ≤ t.size id

/-- The fields of a union are those of its shape. -/
theorem mem_unionFields {field : Field} (h : field ∈ t.unionFields id) :
    ∃ fields, t.shape id = .union fields ∧ field ∈ fields := by
  rw [unionFields] at h
  cases hs : t.shape id with
  | union fields =>
    rw [hs] at h
    exact ⟨fields, rfl, h⟩
  | _ => rw [hs] at h; cases h

/-- The fields of unions fit in an extended table. -/
theorem UnionsFit.grows (hfit : t.UnionsFit) (ht : t.WellFormed) (h : t.Grows u) :
    u.UnionsFit := by
  intro id field hfield
  obtain ⟨fields, hs, -⟩ := mem_unionFields hfield
  have hid := h.shape_union hs
  rw [h.extends.unionFields hid] at hfield
  rw [h.extends.size (ht.has_unionField hid hfield), h.extends.size hid]
  exact hfit id field hfield

end TypeTable

end TypeRecovery
