import TypeRecovery.Proofs.DataType.Layout

/-!
# Bounds of data types

The types of a table have sizes that fit 32 bits, the elements of arrays have a size, fields end
within their structures and unions, and the spaces that are mentioned exist. A type that is interned
only has to meet these bounds itself, so every constructor keeps the table within them.
-/

namespace TypeRecovery

namespace TypeTable

/-- The types that a type is made of exist, and its size and layout are within bounds. There are
`spaces` address spaces. -/
structure Fits (t : TypeTable) (spaces : Nat) (d : DataType) : Prop where
  /-- The size fits 32 bits. -/
  size : d.size < UInt32.size
  /-- The components exist. -/
  components : ∀ c ∈ d.shape.components, t.Has c
  /-- The element of an array has a size. -/
  element : ∀ element count, d.shape = .array element count → 0 < t.size element
  /-- The fields of a structure or a union end within it. -/
  fields : ∀ fields, d.shape = .struct fields ∨ d.shape = .union fields →
    ∀ field ∈ fields, t.fieldEnd field ≤ d.size
  /-- The space exists. -/
  space : ∀ space, d.shape = .spacebase space → space < spaces

/-- All types of a table are within bounds. -/
def Laid (spaces : Nat) (t : TypeTable) : Prop := ∀ entry ∈ t.types, t.Fits spaces entry.toDataType

variable {t u : TypeTable} {spaces : Nat} {d : DataType}

/-- A type within bounds stays so when the table grows. -/
theorem Fits.mono (h : t.Fits spaces d) (hu : t.Extends u) : u.Fits spaces d where
  size := h.size
  components c hc := hu.has (h.components c hc)
  element element count hs := by
    rw [hu.size (h.components element (by rw [hs]; exact List.mem_singleton_self _))]
    exact h.element element count hs
  fields fields hs field hfield := by
    have hcomponents : d.shape.components = fields.map (·.type) := by
      rcases hs with hs | hs <;> rw [hs] <;> rfl
    have hhas := h.components field.type (hcomponents ▸ List.mem_map_of_mem hfield)
    rw [fieldEnd, hu.size hhas]
    exact h.fields fields hs field hfield
  space := h.space

/-- A type without a layout is within bounds if its size is and its pointee exists. -/
theorem fits_plain (hplain : d.Plain) (hsize : d.size < UInt32.size)
    (hc : ∀ c ∈ d.shape.components, t.Has c) : t.Fits spaces d where
  size := hsize
  components := hc
  element _ _ hs := by
    rw [DataType.Plain, hs] at hplain
    exact hplain.elim
  fields _ hs := by
    rcases hs with hs | hs <;> rw [DataType.Plain, hs] at hplain <;> exact hplain.elim
  space _ hs := by
    rw [DataType.Plain, hs] at hplain
    exact hplain.elim

namespace Laid

/-- A table without types is within bounds. -/
theorem empty (spaces pointerSize : Nat) : (TypeTable.empty pointerSize).Laid spaces :=
  fun d hd => absurd hd (Array.not_mem_empty d)

/-- Interning a type within bounds keeps the table within them. -/
theorem intern (h : t.Laid spaces) (hd : t.Fits spaces d) : (t.intern d).table.Laid spaces := by
  have hext := t.intern_extends d
  cases hf : t.find? d.key with
  | some found =>
    rw [intern_of_find? hf]
    exact h
  | none =>
    intro x hx
    refine Fits.mono ?_ hext
    rw [intern_of_find?_none hf] at hx
    rcases Array.mem_push.mp hx with hold | rfl
    · exact h x hold
    · exact hd

/-! ## What holds of single types -/

/-- The types of a table fit. -/
theorem get (h : t.Laid spaces) {id : Nat} (hid : t.Has id) :
    t.Fits spaces (t.get id).toDataType := by
  apply h
  rw [TypeTable.get, Array.getElem?_eq_getElem hid]
  exact Array.getElem_mem hid

/-- The sizes of types fit 32 bits. -/
theorem size_lt (h : t.Laid spaces) (id : Nat) : t.size id < UInt32.size := by
  by_cases hid : t.Has id
  · exact (h.get hid).size
  · rw [size, TypeTable.get, Array.getElem?_eq_none (Nat.le_of_not_lt hid)]
    exact Nat.zero_lt_succ _

/-- The elements of arrays have a size. -/
theorem element_pos (h : t.Laid spaces) {id element count : Nat} (hid : t.Has id)
    (hs : t.shape id = .array element count) : 0 < t.size element :=
  (h.get hid).element element count hs

/-- The fields of a structure end within it. -/
theorem fieldEnd_le (h : t.Laid spaces) {id : Nat} (hid : t.Has id) {fields : List Field}
    (hs : t.shape id = .struct fields) {field : Field} (hfield : field ∈ fields) :
    t.fieldEnd field ≤ t.size id :=
  (h.get hid).fields fields (Or.inl hs) field hfield

/-! ## Constructors -/

/-- The type `void` is within bounds. -/
theorem void (h : t.Laid spaces) : t.void.table.Laid spaces :=
  h.intern (fits_plain trivial (by decide) fun _ hc => by cases hc)

/-- Atoms are within bounds. -/
theorem atom (h : t.Laid spaces) {size : Nat} (hsize : size < UInt32.size) (a : Atom) :
    (t.atom size a).table.Laid spaces :=
  h.intern (fits_plain trivial hsize fun _ hc => by cases hc)

/-- Pointers are within bounds. -/
theorem pointerSized (h : t.Laid spaces) {size pointee : Nat} (hsize : size < UInt32.size)
    (wordSize : Nat) (hp : t.Has pointee) :
    (t.pointerSized size pointee wordSize).table.Laid spaces := by
  refine h.intern (fits_plain trivial hsize fun c hc => ?_)
  rw [List.mem_singleton.mp hc]
  exact hp

/-- Pointers of limited depth are within bounds. -/
theorem pointerNoDepth (h : t.Laid spaces) {size pointee : Nat} (hsize : size < UInt32.size)
    (wordSize : Nat) (hp : t.Has pointee) :
    (t.pointerNoDepth size pointee wordSize).table.Laid spaces := by
  rw [pointerNoDepth_eq]
  cases t.nesting pointee with
  | shallow => exact h.pointerSized hsize wordSize hp
  | deep =>
    exact (h.atom (h.size_lt pointee) .unknown).pointerSized hsize wordSize
      (t.gives_atom (t.size pointee) .unknown).has
  | full => exact h

/-- The contents of a space that exists are within bounds. -/
theorem spacebase (h : t.Laid spaces) {space : Nat} (hspace : space < spaces) (name : String) :
    (t.spacebase space name).table.Laid spaces := by
  apply h.intern
  have hsize : 1 < UInt32.size := by decide
  refine ⟨hsize, ?_, ?_, ?_, ?_⟩
  · exact fun _ hc => by cases hc
  · exact fun _ _ hs => by cases hs
  · rintro _ (hs | hs) <;> cases hs
  · rintro _ ⟨rfl⟩
    exact hspace

/-- An array is within bounds, whether it is built or not. -/
theorem array (h : t.Laid spaces) {element : Nat} (he : t.Has element) (count : Nat) :
    (t.tryArray element count).state.Laid spaces := by
  simp only [TypeTable.tryArray]
  split
  · exact h
  · rename_i hsized
    split
    · rename_i hfits
      apply h.intern
      refine ⟨hfits, ?_, ?_, ?_, ?_⟩
      · intro c hc
        rw [List.mem_singleton.mp hc]
        exact he
      · rintro _ _ ⟨rfl, rfl⟩
        exact Nat.pos_of_ne_zero fun hzero => hsized (Or.inr hzero)
      · rintro _ (hs | hs) <;> cases hs
      · exact fun _ hs => by cases hs
    · exact h

/-- Fields that are in place end within the structure. -/
theorem fieldEnd_le_of_misplacedField? {size start : Nat} {fields : List Field}
    (h : t.misplacedField? size start fields = none) :
    ∀ field ∈ fields, t.fieldEnd field ≤ size := by
  induction fields generalizing start with
  | nil => exact fun _ hf => by cases hf
  | cons field rest ih =>
    rw [misplacedField?] at h
    split at h
    · rename_i hplace
      intro x hx
      rcases List.mem_cons.mp hx with rfl | hrest
      · exact hplace.2
      · exact ih h x hrest
    · cases h

/-- A named type that fits is within bounds, whether it is built or not. -/
theorem named (h : t.Laid spaces) (hd : t.Fits spaces d) : (t.tryNamed d).state.Laid spaces := by
  rw [TypeTable.tryNamed]
  split
  · split <;> exact h
  · exact h.intern hd

/-- A structure is within bounds, whether it is built or not. -/
theorem struct (h : t.Laid spaces) {size : Nat} {fields : List Field} (hsize : size < UInt32.size)
    (hf : ∀ id ∈ fields.map (·.type), t.Has id) (name : String) :
    (t.tryStruct name size fields).state.Laid spaces := by
  rw [TypeTable.tryStruct]
  split
  · exact h
  · rename_i hplaced
    refine h.named ⟨hsize, hf, ?_, ?_, ?_⟩
    · exact fun _ _ hs => by cases hs
    · rintro _ (hs | hs) <;> cases hs
      exact fieldEnd_le_of_misplacedField? hplaced
    · exact fun _ hs => by cases hs

/-- A union is within bounds, whether it is built or not. -/
theorem union (h : t.Laid spaces) {size : Nat} {fields : List Field} (hsize : size < UInt32.size)
    (hf : ∀ id ∈ fields.map (·.type), t.Has id) (name : String) :
    (t.tryUnion name size fields).state.Laid spaces := by
  rw [TypeTable.tryUnion]
  split
  · exact h
  · rename_i hplaced
    refine h.named ⟨hsize, hf, ?_, ?_, ?_⟩
    · exact fun _ _ hs => by cases hs
    · rintro _ (hs | hs) <;> cases hs
      intro field hfield
      have hstart := List.find?_eq_none.mp hplaced field hfield
      simp only [decide_eq_true_eq, not_or, Decidable.not_not, Nat.not_lt] at hstart
      rw [fieldEnd, hstart.1, Nat.zero_add]
      exact hstart.2
    · exact fun _ hs => by cases hs

end Laid

end TypeTable

end TypeRecovery
