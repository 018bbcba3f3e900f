import TypeRecovery.DataType.Layout
import TypeRecovery.Proofs.DataType.Order

/-!
# Growing tables of types

A table only grows, so what is read of a type stays as it is while other types are interned. The
lemmas here are about any two tables of which the second extends the first, about interning one
type, and about tables reached by interning any number of types whose components exist.
-/

namespace TypeRecovery

namespace TypeTable

/-- The second table holds every type of the first one at the same position. -/
structure Extends (t u : TypeTable) : Prop where
  /-- The size of a pointer is the same. -/
  pointerSize : u.pointerSize = t.pointerSize
  /-- The types of the first table are where they were. -/
  old : ∀ id : Nat, id < t.types.size → u.types[id]? = t.types[id]?

/-- The components of a type are older than the type. -/
def WellFormed (t : TypeTable) : Prop :=
  ∀ id c : Nat, c ∈ (t.shape id).components → c < id

/-- A position holds a type. -/
def Has (t : TypeTable) (id : Nat) : Prop := id < t.types.size

instance (t : TypeTable) (id : Nat) : Decidable (t.Has id) :=
  inferInstanceAs (Decidable (id < t.types.size))

namespace Extends

variable {t u w : TypeTable} {id : Nat}

/-- A table extends itself. -/
theorem refl (t : TypeTable) : t.Extends t := ⟨rfl, fun _ _ => rfl⟩

/-- A table that extends another has at least as many types. -/
theorem has (h : t.Extends u) (hid : t.Has id) : u.Has id := by
  have he := h.old id hid
  rw [Array.getElem?_eq_getElem hid] at he
  exact (Array.getElem?_eq_some_iff.mp he).1

/-- Tables may be extended one after the other. -/
theorem trans (h : t.Extends u) (h' : u.Extends w) : t.Extends w :=
  ⟨h'.pointerSize.trans h.pointerSize,
    fun id hid => (h'.old id (h.has hid)).trans (h.old id hid)⟩

/-- Two tables that extend each other are equal. -/
theorem antisymm (h : t.Extends u) (h' : u.Extends t) : u = t := by
  have htypes : u.types = t.types := by
    apply Array.ext_getElem?
    intro i
    by_cases hi : i < t.types.size
    · exact h.old i hi
    · by_cases hi' : i < u.types.size
      · exact (h'.old i hi').symm
      · rw [Array.getElem?_eq_none (Nat.le_of_not_lt hi),
          Array.getElem?_eq_none (Nat.le_of_not_lt hi')]
  have hindex : u.index = t.index := by rw [u.indexed, t.indexed, htypes]
  have hsize := h.pointerSize
  cases t
  cases u
  cases htypes
  cases hindex
  cases hsize
  rfl

/-- A type stays what it is when the table is extended. -/
theorem get (h : t.Extends u) (hid : t.Has id) : u.get id = t.get id := by
  rw [TypeTable.get, TypeTable.get, h.old id hid]

/-- The size of a type stays the same. -/
theorem size (h : t.Extends u) (hid : t.Has id) : u.size id = t.size id := by
  rw [TypeTable.size, TypeTable.size, h.get hid]

/-- What a type is made of stays the same. -/
theorem shape (h : t.Extends u) (hid : t.Has id) : u.shape id = t.shape id := by
  rw [TypeTable.shape, TypeTable.shape, h.get hid]

/-- The classification of a type stays the same. -/
theorem metatype (h : t.Extends u) (hid : t.Has id) : u.metatype id = t.metatype id := by
  rw [TypeTable.metatype, TypeTable.metatype, h.get hid]

/-- What a type points to stays the same. -/
theorem pointee? (h : t.Extends u) (hid : t.Has id) : u.pointee? id = t.pointee? id := by
  rw [TypeTable.pointee?, TypeTable.pointee?, h.shape hid]

/-- The unit of a pointer stays the same. -/
theorem wordSize (h : t.Extends u) (hid : t.Has id) : u.wordSize id = t.wordSize id := by
  rw [TypeTable.wordSize, TypeTable.wordSize, h.shape hid]

/-- The fields of a union stay the same. -/
theorem unionFields (h : t.Extends u) (hid : t.Has id) : u.unionFields id = t.unionFields id := by
  rw [TypeTable.unionFields, TypeTable.unionFields, h.shape hid]

/-- The element of an array stays the same. -/
theorem stripArray (h : t.Extends u) (hid : t.Has id) : u.stripArray id = t.stripArray id := by
  rw [TypeTable.stripArray, TypeTable.stripArray, h.shape hid]

end Extends

section Components

variable {t u : TypeTable} {id c : Nat}

/-- The components of an existing type exist. -/
theorem WellFormed.has_component (ht : t.WellFormed) (hid : t.Has id)
    (hc : c ∈ (t.shape id).components) : t.Has c :=
  Nat.lt_trans (ht id c hc) hid

/-- A type that is not there has no shape to speak of. -/
theorem shape_of_not_has (hid : ¬t.Has id) : t.shape id = .void := by
  rw [shape, get, Array.getElem?_eq_none (Nat.le_of_not_lt hid)]
  rfl

/-- Only the types that are there have components to check. -/
theorem wellFormed_iff :
    t.WellFormed ↔ ∀ id < t.types.size, ∀ c ∈ (t.shape id).components, c < id := by
  constructor
  · exact fun h id _ c hc => h id c hc
  · intro h id c hc
    by_cases hid : t.Has id
    · exact h id hid c hc
    · rw [shape_of_not_has hid] at hc
      cases hc

instance (t : TypeTable) : Decidable t.WellFormed := decidable_of_iff' _ wellFormed_iff

/-- Only pointers point to something. -/
theorem pointee?_eq_some_iff {p : Nat} :
    t.pointee? id = some p ↔ ∃ w, t.shape id = .pointer p w := by
  rw [pointee?]
  cases t.shape id <;> simp

/-- What a pointer points to exists and is older than the pointer. -/
theorem WellFormed.pointee_lt (ht : t.WellFormed) {p : Nat} (hp : t.pointee? id = some p) :
    p < id := by
  obtain ⟨w, hw⟩ := pointee?_eq_some_iff.mp hp
  exact ht id p (by simp [hw, Shape.components])

/-- What a type of the table points to is in the table. -/
theorem WellFormed.has_pointee (ht : t.WellFormed) (hid : t.Has id) {p : Nat}
    (hp : t.pointee? id = some p) : t.Has p :=
  Nat.lt_trans (ht.pointee_lt hp) hid

/-- The types of the fields of a union are in the table. -/
theorem WellFormed.has_unionField (ht : t.WellFormed) (hid : t.Has id) {field : Field}
    (hf : field ∈ t.unionFields id) : t.Has field.type := by
  apply ht.has_component hid
  rw [unionFields] at hf
  cases hs : t.shape id with
  | union fields =>
    rw [hs] at hf
    exact List.mem_map_of_mem hf
  | _ => simp [hs] at hf

/-- The element of an array is in the table. -/
theorem WellFormed.has_stripArray (ht : t.WellFormed) (hid : t.Has id) :
    t.Has (t.stripArray id) := by
  rw [stripArray]
  cases hs : t.shape id with
  | array element count => exact ht.has_component hid (by simp [hs, Shape.components])
  | _ => exact hid

/-- Whether a type has to be resolved before it flows does not depend on later types. -/
theorem Extends.needsResolution (h : t.Extends u) (ht : t.WellFormed) (hid : t.Has id) :
    u.needsResolution id = t.needsResolution id := by
  rw [TypeTable.needsResolution, TypeTable.needsResolution, h.shape hid]
  cases hs : t.shape id with
  | pointer p w =>
    have hp : t.Has p := ht.has_component hid (by simp [hs, Shape.components])
    simp only [h.metatype hp]
  | _ => rfl

/-- Whether a type points to the contents of a space stays the same. -/
theorem Extends.isSpacebasePointer (h : t.Extends u) (ht : t.WellFormed) (hid : t.Has id) :
    u.isSpacebasePointer id = t.isSpacebasePointer id := by
  rw [TypeTable.isSpacebasePointer, TypeTable.isSpacebasePointer, h.pointee? hid]
  cases hp : t.pointee? id with
  | none => rfl
  | some p => simp only [h.metatype (ht.has_pointee hid hp)]

end Components

section Order

variable {t u : TypeTable}

/-- Only the types of the fields matter to the order of two lists of fields. -/
theorem compareFields_congr {f g : TypeId → TypeId → Ordering} {xs ys : List Field}
    (h : ∀ x ∈ xs, ∀ y ∈ ys, f x.type y.type = g x.type y.type) :
    compareFields f xs ys = compareFields g xs ys := by
  induction xs generalizing ys with
  | nil => cases ys <;> rfl
  | cons x xs ih =>
    cases ys with
    | nil => rfl
    | cons y ys =>
      have hhead := h x (List.mem_cons_self ..) y (List.mem_cons_self ..)
      have htail := ih fun a ha b hb =>
        h a (List.mem_cons_of_mem _ ha) b (List.mem_cons_of_mem _ hb)
      rw [compareFields, compareFields, hhead, htail]

/-- Only the components matter to the order of two shapes. -/
theorem compareShapes_congr {f g : TypeId → TypeId → Ordering} {a b : Shape}
    (h : ∀ x ∈ a.components, ∀ y ∈ b.components, f x y = g x y) :
    compareShapes f a b = compareShapes g a b := by
  have hfields {xs ys : List Field} (hx : xs.map (·.type) = a.components)
      (hy : ys.map (·.type) = b.components) :
      compareFieldLists f xs ys = compareFieldLists g xs ys := by
    rw [compareFieldLists, compareFieldLists]
    congr 1
    apply compareFields_congr
    intro x hxm y hym
    exact h _ (hx ▸ List.mem_map_of_mem hxm) _ (hy ▸ List.mem_map_of_mem hym)
  cases a <;> cases b <;> try rfl
  · exact h _ (List.mem_singleton_self _) _ (List.mem_singleton_self _)
  · exact h _ (List.mem_singleton_self _) _ (List.mem_singleton_self _)
  · exact hfields rfl rfl
  · exact hfields rfl rfl

/-- The order of two types does not depend on later types, at any depth. -/
theorem Extends.compareAt (h : t.Extends u) (ht : t.WellFormed) (level : Nat) {a b : Nat}
    (ha : t.Has a) (hb : t.Has b) : u.compareAt level a b = t.compareAt level a b := by
  have hheads {a b : Nat} (ha : t.Has a) (hb : t.Has b) :
      u.compareHeads a b = t.compareHeads a b := by
    rw [compareHeads, compareHeads, h.size ha, h.size hb, h.metatype ha, h.metatype hb]
  induction level generalizing a b with
  | zero => rw [TypeTable.compareAt, TypeTable.compareAt, hheads ha hb]
  | succ level ih =>
    rw [TypeTable.compareAt, TypeTable.compareAt, hheads ha hb, h.shape ha, h.shape hb]
    have hshapes : compareShapes (u.compareAt level) (t.shape a) (t.shape b) =
        compareShapes (t.compareAt level) (t.shape a) (t.shape b) :=
      compareShapes_congr fun x hx y hy =>
        ih (ht.has_component ha hx) (ht.has_component hb hy)
    rw [hshapes]

/-- The order of two types stays the same. -/
theorem Extends.order (h : t.Extends u) (ht : t.WellFormed) {a b : Nat}
    (ha : t.Has a) (hb : t.Has b) : u.order a b = t.order a b :=
  h.compareAt ht orderDepth ha hb

/-- Which of two types is more specific stays the same. -/
theorem Extends.moreSpecific (h : t.Extends u) (ht : t.WellFormed) {a b : Nat}
    (ha : t.Has a) (hb : t.Has b) : u.moreSpecific a b = t.moreSpecific a b := by
  rw [TypeTable.moreSpecific, TypeTable.moreSpecific, h.order ht ha hb]

end Order

section Intern

variable {t u : TypeTable} {d : DataType} {key : TypeKey} {id : Nat}

/-- Entries at the positions that they name, of which the first is `start`, are found in an index at
the position of the first entry with the key. -/
private theorem lookup_entries {entries : List TypeEntry} {start : Nat}
    (h : ∀ (i : Nat) (hi : i < entries.length), entries[i].id = start + i) :
    (entries.map fun entry => (entry.key, entry.id)).lookup key =
      (entries.findIdx? fun entry => entry.key = key).map (start + ·) := by
  induction entries generalizing start with
  | nil => rfl
  | cons entry rest ih =>
    have hfirst : entry.id = start := h 0 (Nat.zero_lt_succ _)
    have hnext (i : Nat) (hi : i < rest.length) : rest[i].id = start + 1 + i := by
      rw [Nat.add_right_comm]
      exact h (i + 1) (Nat.succ_lt_succ hi)
    rw [List.map_cons, List.lookup_cons, List.findIdx?_cons, ih hnext]
    by_cases hkey : entry.key = key
    · simp [hkey, hfirst]
    · have hne : (key == entry.key) = false := beq_false_of_ne (Ne.symm hkey)
      simp [hkey, hne, Nat.add_right_comm, Nat.add_assoc, Function.comp_def]

/-- The index leads to the first type with a key. -/
theorem find?_eq_findIdx? (t : TypeTable) (key : TypeKey) :
    t.find? key = t.types.findIdx? fun entry => entry.key = key := by
  have hpositions (i : Nat) (hi : i < t.types.toList.length) : t.types.toList[i].id = 0 + i :=
    (t.positions i hi).trans (Nat.zero_add i).symm
  rw [find?, t.indexed, lookup_entries hpositions, ← List.findIdx?_toArray]
  simp

/-- A type is found at the first position that holds its key. -/
theorem find?_eq_some_iff : t.find? key = some id ↔
    t.Has id ∧ (t.get id).key = key ∧ ∀ j < id, (t.get j).key ≠ key := by
  have hget {j : Nat} (hj : j < t.types.size) : t.get j = t.types[j] := by
    rw [get, Array.getElem?_eq_getElem hj, Option.getD_some]
  rw [find?_eq_findIdx?, Array.findIdx?_eq_some_iff_getElem]
  constructor
  · rintro ⟨hid, hkey, hbefore⟩
    refine ⟨hid, by simpa [hget hid] using hkey, ?_⟩
    intro j hj
    simpa [hget (Nat.lt_trans hj hid)] using hbefore j hj
  · rintro ⟨hid, hkey, hbefore⟩
    refine ⟨hid, by simpa [hget hid] using hkey, ?_⟩
    intro j hj
    simpa [hget (Nat.lt_trans hj hid)] using hbefore j hj

/-- What was found once is found at the same position in every later table. -/
theorem Extends.find? (h : t.Extends u) (hf : t.find? key = some id) : u.find? key = some id := by
  obtain ⟨hid, hkey, hbefore⟩ := find?_eq_some_iff.mp hf
  refine find?_eq_some_iff.mpr ⟨h.has hid, by rw [h.get hid, hkey], ?_⟩
  intro j hj
  rw [h.get (Nat.lt_trans hj hid)]
  exact hbefore j hj

/-- A type whose key is known is found. -/
theorem intern_of_find? (h : t.find? d.key = some id) : t.intern d = ⟨id, t⟩ := by
  rw [intern, h]

/-- A type whose key is not known is added at the end. -/
theorem intern_of_find?_none (h : t.find? d.key = none) :
    t.intern d = ⟨t.types.size, t.push d⟩ := by
  rw [intern, h]

/-- Storing a type leaves the others where they are. -/
theorem extends_push (t : TypeTable) (d : DataType) : t.Extends (t.push d) :=
  ⟨rfl, fun _ hid => by simp [push, Array.getElem?_push, Nat.ne_of_lt hid]⟩

/-- The last type of a table is the one that was stored last. -/
theorem get_push (t : TypeTable) (d : DataType) :
    (t.push d).get t.types.size = ⟨d, t.types.size⟩ := by
  simp [get, push]

/-- One more type is there after one was stored. -/
theorem has_push_iff : (t.push d).Has id ↔ t.Has id ∨ id = t.types.size := by
  rw [Has, Has, push, Array.size_push]
  omega

/-- Interning extends a table. -/
theorem intern_extends (t : TypeTable) (d : DataType) : t.Extends (t.intern d).table := by
  cases h : t.find? d.key with
  | some id =>
    rw [intern_of_find? h]
    exact .refl t
  | none =>
    rw [intern_of_find?_none h]
    exact t.extends_push d

/-- An interned type is found in the table that holds it. -/
theorem find?_intern (t : TypeTable) (d : DataType) :
    (t.intern d).table.find? d.key = some (t.intern d).id := by
  cases h : t.find? d.key with
  | some id => rw [intern_of_find? h, h]
  | none =>
    rw [intern_of_find?_none h]
    rw [find?_eq_findIdx?] at h
    rw [find?_eq_findIdx?]
    simp [push, Array.findIdx?_push, h]

/-- An interned type is in the table. -/
theorem intern_has (t : TypeTable) (d : DataType) : (t.intern d).table.Has (t.intern d).id :=
  (find?_eq_some_iff.mp (t.find?_intern d)).1

/-- An interned type has the key that it was interned for. -/
theorem key_intern (t : TypeTable) (d : DataType) :
    ((t.intern d).table.get (t.intern d).id).key = d.key :=
  (find?_eq_some_iff.mp (t.find?_intern d)).2.1

/-- Interning a type once more, in any later table, gives the same type and adds nothing. -/
theorem intern_again {d' : DataType} (h : (t.intern d).table.Extends u) (hk : d'.key = d.key) :
    u.intern d' = ⟨(t.intern d).id, u⟩ :=
  intern_of_find? (hk ▸ h.find? (t.find?_intern d))

/-- Interning keeps components older than the types they are part of. -/
theorem WellFormed.intern (ht : t.WellFormed) (hd : ∀ c ∈ d.shape.components, t.Has c) :
    (t.intern d).table.WellFormed := by
  cases h : t.find? d.key with
  | some id =>
    rw [intern_of_find? h]
    exact ht
  | none =>
    rw [intern_of_find?_none h]
    intro id c hc
    by_cases hid : t.Has id
    · rw [(t.extends_push d).shape hid] at hc
      exact ht id c hc
    · by_cases hlast : id = t.types.size
      · rw [hlast, shape, get_push] at hc
        exact hlast ▸ hd c hc
      · have hno : ¬(t.push d).Has id := by simp [has_push_iff, hid, hlast]
        rw [shape_of_not_has hno] at hc
        simp [Shape.components] at hc

end Intern

/-- The second table is reached from the first by interning types with a property, whose
components are there already. -/
inductive GrowsBy (P : DataType → Prop) (t : TypeTable) : TypeTable → Prop where
  | refl : GrowsBy P t t
  | intern {u : TypeTable} (d : DataType) : GrowsBy P t u → P d →
      (∀ c ∈ d.shape.components, u.Has c) → GrowsBy P t (u.intern d).table

namespace GrowsBy

variable {P : DataType → Prop} {t u w : TypeTable}

/-- Growth composes. -/
theorem trans (h : GrowsBy P t u) (h' : GrowsBy P u w) : GrowsBy P t w := by
  induction h' with
  | refl => exact h
  | intern d _ hd hc ih => exact .intern d ih hd hc

/-- A table that has grown extends the old one. -/
theorem «extends» (h : GrowsBy P t u) : t.Extends u := by
  induction h with
  | refl => exact .refl t
  | intern d _ _ _ ih => exact ih.trans (intern_extends _ d)

/-- A table that has grown is well-formed if the old one was. -/
theorem wellFormed (h : GrowsBy P t u) (ht : t.WellFormed) : u.WellFormed := by
  induction h with
  | refl => exact ht
  | intern d _ _ hc ih => exact ih.intern hc

end GrowsBy

/-- How a pointer to a type is built so that it never nests three pointers. -/
inductive Nesting where
  /-- The pointer points to the type. -/
  | shallow
  /-- The pointer points to unknown bytes of the size of the type. -/
  | deep
  /-- The type stands for the pointer. -/
  | full

/-- How a pointer to a type is built. -/
def nesting (t : TypeTable) (pointee : TypeId) : Nesting :=
  match t.pointee? pointee with
  | none => .shallow
  | some inner =>
    match t.metatype inner with
    | .ptr => .deep
    | .unknown => if t.size inner = t.size pointee then .full else .deep
    | _ => .shallow

/-- A pointer to unknown bytes of a given size. -/
def blurredPointer (t : TypeTable) (size bytes wordSize : Nat) : Interned :=
  (t.unknown bytes).table.pointerSized size (t.unknown bytes).id wordSize

/-- How a pointer is made depends on how deeply pointers are nested in what it points to. -/
theorem pointerNoDepth_eq (t : TypeTable) (size : Nat) (pointee : TypeId) (wordSize : Nat) :
    t.pointerNoDepth size pointee wordSize =
      match t.nesting pointee with
      | .shallow => t.pointerSized size pointee wordSize
      | .deep => t.blurredPointer size (t.size pointee) wordSize
      | .full => ⟨pointee, t⟩ := by
  rw [pointerNoDepth, nesting]
  cases t.pointee? pointee with
  | none => rfl
  | some inner =>
    cases hm : t.metatype inner <;> simp only [hm, blurredPointer]
    split <;> rfl

end TypeTable

end TypeRecovery
