import TypeRecovery.Proofs.DataType.Interning

/-!
# Components and the bytes they occupy

A type is a component of itself, and so are the components of the fields of a structure and of the
elements of an array, each moved to where the field or the element starts. In a table built by
constructor calls components stay within their type and only one field holds a byte. So looking for
the component of given bytes from the outside in finds the outermost one, if there is any.
-/

namespace TypeRecovery

namespace TypeTable

variable {t u : TypeTable} {id c d offset size : Nat}

/-- A component starts at a byte of a type. Unions and pointers are not entered. -/
inductive ComponentAt (t : TypeTable) : TypeId → Nat → TypeId → Prop where
  /-- The type itself starts at its first byte. -/
  | self (id : TypeId) : ComponentAt t id 0 id
  /-- The components of a field start after the offset of the field. -/
  | field {id : TypeId} {fields : List Field} {field : Field} {offset : Nat} {c : TypeId} :
      t.shape id = .struct fields → field ∈ fields → ComponentAt t field.type offset c →
      ComponentAt t id (field.offset + offset) c
  /-- The components of an element start after the elements before it. -/
  | element {id element : TypeId} {count index offset : Nat} {c : TypeId} :
      t.shape id = .array element count → index < count → ComponentAt t element offset c →
      ComponentAt t id (index * t.size element + offset) c

/-! ## Nested components -/

/-- A component of a component is a component. -/
theorem ComponentAt.trans {offset' : Nat} (h : t.ComponentAt id offset c)
    (h' : t.ComponentAt c offset' d) : t.ComponentAt id (offset + offset') d := by
  induction h with
  | self id =>
    rw [Nat.zero_add]
    exact h'
  | field hs hf _ ih =>
    rw [Nat.add_assoc]
    exact .field hs hf (ih h')
  | element hs hi _ ih =>
    rw [Nat.add_assoc]
    exact .element hs hi (ih h')

/-- A field is a component at its offset. -/
theorem ComponentAt.of_field {fields : List Field} {field : Field}
    (hs : t.shape id = .struct fields) (hf : field ∈ fields) :
    t.ComponentAt id field.offset field.type :=
  .field hs hf (.self field.type)

/-- The element that holds a byte of an array is a component. -/
theorem ComponentAt.of_element {element count index : Nat} (hs : t.shape id = .array element count)
    (hi : index < count) : t.ComponentAt id (index * t.size element) element :=
  .element hs hi (.self element)

/-- No component is newer than its type. -/
theorem ComponentAt.le (h : t.ComponentAt id offset c) (ht : t.WellFormed) : c ≤ id := by
  induction h with
  | self id => exact Nat.le_refl id
  | field hs hf _ ih =>
    have hlt := ht _ _ (mem_components_of_struct hs hf)
    omega
  | element hs _ _ ih =>
    have hlt := ht _ _ (mem_components_of_array hs)
    omega

/-- A component exists if its type does. -/
theorem ComponentAt.has (h : t.ComponentAt id offset c) (ht : t.WellFormed) (hid : t.Has id) :
    t.Has c :=
  Nat.lt_of_le_of_lt (h.le ht) hid

/-- A type of another shape than the default one is in the table. -/
theorem has_of_shape_ne_void {shape : Shape} (hs : t.shape id = shape) (hne : shape ≠ .void) :
    t.Has id := by
  by_contra hid
  rw [shape_of_not_has hid] at hs
  exact hne hs.symm

/-- The fields of a structure are in order, apart and within it. -/
theorem AllMade.struct_layout (hmade : t.AllMade) {fields : List Field}
    (hs : t.shape id = .struct fields) :
    fields.Pairwise (fun x y => x.offset ≤ y.offset ∧ t.fieldEnd x ≤ y.offset) ∧
      ∀ field ∈ fields, t.fieldEnd field ≤ t.size id :=
  (hmade.get (has_of_shape_ne_void hs Shape.noConfusion)).struct_layout hs

/-- An array consists of its elements. -/
theorem AllMade.array_layout (hmade : t.AllMade) {element count : Nat}
    (hs : t.shape id = .array element count) :
    t.size id = t.size element * count ∧ 0 < t.size element ∧ 0 < count ∧
      t.size id < UInt32.size :=
  (hmade.get (has_of_shape_ne_void hs Shape.noConfusion)).array_layout hs

/-- A component ends within its type. -/
theorem ComponentAt.end_le (h : t.ComponentAt id offset c) (hmade : t.AllMade) :
    offset + t.size c ≤ t.size id := by
  induction h with
  | self id => omega
  | @field id fields field offset c hs hf _ ih =>
    have hend := (hmade.struct_layout hs).2 field hf
    rw [fieldEnd] at hend
    omega
  | @element id element count index offset c hs hi _ ih =>
    obtain ⟨hsize, -⟩ := hmade.array_layout hs
    have hlast : (index + 1) * t.size element ≤ count * t.size element :=
      Nat.mul_le_mul_right _ hi
    rw [Nat.add_mul, Nat.one_mul] at hlast
    rw [hsize, Nat.mul_comm (t.size element)]
    omega

/-! ## The field that holds a byte -/

/-- Only one field of a structure holds a byte, so it is the one that is found. -/
theorem find?_covers_eq {fields : List Field} {field : Field}
    (hplaced : fields.Pairwise (fun x y => t.fieldEnd x ≤ y.offset)) (hf : field ∈ fields)
    (hcovers : t.covers offset field = true) : fields.find? (t.covers offset) = some field := by
  induction fields with
  | nil => cases hf
  | cons first rest ih =>
    obtain ⟨hfirst, hrest⟩ := List.pairwise_cons.mp hplaced
    rcases List.mem_cons.mp hf with rfl | hlater
    · rw [List.find?_cons_of_pos hcovers]
    · have hnot : ¬t.covers offset first = true := by
        have horder := hfirst field hlater
        simp only [covers, decide_eq_true_eq] at hcovers ⊢
        omega
      rw [List.find?_cons_of_neg hnot]
      exact ih hrest hlater

/-- The field that holds the start of a component is found. -/
theorem AllMade.find?_covers (hmade : t.AllMade) {fields : List Field} {field : Field}
    (hs : t.shape id = .struct fields) (hf : field ∈ fields) (hlt : offset < t.size field.type) :
    fields.find? (t.covers (field.offset + offset)) = some field := by
  have hplaced := (hmade.struct_layout hs).1
  apply find?_covers_eq (hplaced.imp And.right) hf
  rw [covers, decide_eq_true_iff, fieldEnd]
  omega

/-! ## Pieces -/

/-- What is found at given bytes is a component there. -/
theorem componentAt_of_pieceBelow {bound piece : Nat} (hmade : t.AllMade) (hpos : 0 < size)
    (h : t.pieceBelow bound id offset size = some piece) : t.ComponentAt id offset piece := by
  induction bound generalizing id offset with
  | zero => cases h
  | succ bound ih =>
    rw [pieceBelow] at h
    split at h
    · rename_i hwhole
      cases h
      rw [hwhole.1]
      exact .self _
    · split at h
      · cases h
      · rename_i hfits
        cases hs : t.shape id with
        | struct fields =>
          simp only [hs] at h
          cases hfind : fields.find? (t.covers offset) with
          | none => simp only [hfind] at h; cases h
          | some field =>
            simp only [hfind] at h
            have hcovers := List.find?_some hfind
            simp only [covers, decide_eq_true_eq] at hcovers
            have hinner := ComponentAt.field hs (List.mem_of_find?_eq_some hfind) (ih h)
            rwa [Nat.add_sub_of_le hcovers.1] at hinner
        | array element count =>
          simp only [hs] at h
          obtain ⟨hsize, helement, -⟩ := hmade.array_layout hs
          have hindex : offset / t.size element < count := by
            rw [Nat.div_lt_iff_lt_mul helement, Nat.mul_comm]
            omega
          have hinner := ComponentAt.element hs hindex (ih h)
          rwa [Nat.div_add_mod'] at hinner
        | _ => simp only [hs] at h; cases h

/-- If a component has the size that is asked for, a piece is found that holds it at its start. -/
theorem ComponentAt.pieceBelow {bound : Nat} (h : t.ComponentAt id offset c) (ht : t.WellFormed)
    (hmade : t.AllMade) (hpos : 0 < t.size c) (hbound : id < bound) :
    ∃ piece, t.pieceBelow bound id offset (t.size c) = some piece ∧ t.ComponentAt piece 0 c := by
  induction bound generalizing id offset with
  | zero => omega
  | succ bound ih =>
    rw [TypeTable.pieceBelow]
    split
    · -- the type itself has the size, so it comes before all components in it
      rename_i hwhole
      rw [hwhole.1] at h
      exact ⟨id, rfl, h⟩
    · rename_i hpart
      rw [if_neg (Nat.not_lt.mpr (h.end_le hmade))]
      cases h with
      | self => exact absurd ⟨rfl, rfl⟩ hpart
      | @field _ fields field offset _ hs hf hinner =>
        have hend := hinner.end_le hmade
        have hlt := ht _ _ (mem_components_of_struct hs hf)
        have hstart : offset < t.size field.type := by omega
        simp only [hs, hmade.find?_covers hs hf hstart, Nat.add_sub_cancel_left]
        exact ih hinner (by omega)
      | @element _ element count index offset _ hs hi hinner =>
        have hend := hinner.end_le hmade
        have hlt := ht _ _ (mem_components_of_array hs)
        have hrest : (index * t.size element + offset) % t.size element = offset := by
          rw [Nat.mul_comm, Nat.mul_add_mod, Nat.mod_eq_of_lt (by omega)]
        simp only [hs, hrest]
        exact ih hinner (by omega)

/-- The outermost component that occupies exactly the bytes from `offset` up to
`offset + size`: every other such component starts with it. -/
structure Outermost (t : TypeTable) (id : TypeId) (offset size : Nat) (piece : TypeId) : Prop where
  /-- It is a component at the offset. -/
  component : t.ComponentAt id offset piece
  /-- It has the size. -/
  sized : t.size piece = size
  /-- It holds all other components of the size at the offset. -/
  outer : ∀ c, t.ComponentAt id offset c → t.size c = size → t.ComponentAt piece 0 c

/-- In every table built by constructor calls a piece is found exactly when some component has the
size at the offset, and what is found is the outermost of these components. -/
theorem Reaches.exactPiece_eq_some_iff {pointerSize : Nat} (h : Reaches (empty pointerSize) t)
    (id : TypeId) (offset : Nat) {size : Nat} (hpos : 0 < size) :
    ((t.exactPiece id offset size).isSome = true ↔
        ∃ c, t.ComponentAt id offset c ∧ t.size c = size) ∧
      ∀ piece, t.exactPiece id offset size = some piece ↔ t.Outermost id offset size piece := by
  have ht := h.wellFormed
  obtain ⟨hmade, -⟩ := h.allMade
  have hsound {piece : Nat} (hp : t.exactPiece id offset size = some piece) :
      t.ComponentAt id offset piece ∧ t.size piece = size :=
    ⟨componentAt_of_pieceBelow hmade hpos hp, size_exactPiece hp⟩
  have hcomplete {c : Nat} (hc : t.ComponentAt id offset c) (hsize : t.size c = size) :
      ∃ piece, t.exactPiece id offset size = some piece ∧ t.ComponentAt piece 0 c := by
    rw [← hsize]
    exact hc.pieceBelow ht hmade (by omega) (Nat.lt_succ_self id)
  constructor
  · constructor
    · intro hsome
      obtain ⟨piece, hpiece⟩ := Option.isSome_iff_exists.mp hsome
      exact ⟨piece, hsound hpiece⟩
    · rintro ⟨c, hc, hsize⟩
      obtain ⟨piece, hpiece, -⟩ := hcomplete hc hsize
      rw [hpiece]
      rfl
  · intro piece
    constructor
    · intro hpiece
      obtain ⟨hcomponent, hsize⟩ := hsound hpiece
      refine ⟨hcomponent, hsize, fun c hc hcsize => ?_⟩
      obtain ⟨found, hfound, hholds⟩ := hcomplete hc hcsize
      cases hpiece.symm.trans hfound
      exact hholds
    · intro houter
      obtain ⟨found, hfound, hholds⟩ := hcomplete houter.component houter.sized
      -- each of the two holds the other, so they are one type
      obtain ⟨hcomponent, hsize⟩ := hsound hfound
      have hle := (houter.outer found hcomponent hsize).le ht
      have hge := hholds.le ht
      rw [hfound, Nat.le_antisymm hle hge]

/-- An integer, a row of three, a structure of both with a gap, a structure that only wraps it, and
two of these in a row. -/
def nested : TypeTable :=
  (empty 8).perform (.base 4 .int) |>.perform (.array 0 3)
    |>.perform (.struct "s" 20 [⟨0, "a", 0⟩, ⟨8, "b", 1⟩])
    |>.perform (.struct "w" 20 [⟨0, "s", 2⟩]) |>.perform (.array 3 2)

/-- At byte 20 of the two wrapped structures the second wrapper is found, which holds the structure
in it, at byte 32 the second integer of its row, and nothing in the gap at byte 24. -/
theorem nested_exactPiece :
    Reaches (empty 8) nested ∧ nested.Outermost 4 20 20 3 ∧ nested.ComponentAt 3 0 2 ∧
      nested.Outermost 4 32 4 0 ∧ ¬∃ c, nested.ComponentAt 4 24 c ∧ nested.size c = 4 := by
  have hreach : Reaches (empty 8) nested := by
    refine .call _ (.call _ (.call _ (.call _ (.call _ .refl ?_) ?_) ?_) ?_) ?_
    all_goals decide +kernel
  have hwrapper : nested.Outermost 4 20 20 3 :=
    ((hreach.exactPiece_eq_some_iff 4 20 (by decide)).2 3).mp (by decide +kernel)
  have hinteger : nested.Outermost 4 32 4 0 :=
    ((hreach.exactPiece_eq_some_iff 4 32 (by decide)).2 0).mp (by decide +kernel)
  have hgap : (nested.exactPiece 4 24 4).isSome = false := by decide +kernel
  have hrow : nested.shape 4 = .array 3 2 := by decide +kernel
  have hwraps : nested.shape 3 = .struct [⟨0, "s", 2⟩] := by decide +kernel
  have hinner : nested.ComponentAt 4 (1 * nested.size 3 + 0) 2 :=
    .element hrow (by decide) (.of_field hwraps List.mem_cons_self)
  have hbyte : 1 * nested.size 3 + 0 = 20 := by decide +kernel
  refine ⟨hreach, hwrapper, ?_, hinteger, ?_⟩
  · apply hwrapper.outer 2
    · rwa [hbyte] at hinner
    · decide +kernel
  · rw [← (hreach.exactPiece_eq_some_iff 4 24 (by decide)).1, hgap]
    exact Bool.false_ne_true

end TypeTable

end TypeRecovery
