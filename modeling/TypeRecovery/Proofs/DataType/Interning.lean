import TypeRecovery.Proofs.DataType.Construction
import TypeRecovery.Proofs.DataType.Size

/-!
# Tables without duplicates

A constructor either refuses its arguments or interns a type that is laid out as it should be. So in
every table that calls have built the layouts are right, no type is there twice, and a call that is
made again, however much later, gives the answer it gave before and adds nothing.
-/

namespace TypeRecovery

attribute [ext] DataType

namespace TypeTable

variable {t u : TypeTable} {d d' : DataType}

/-! ## Layouts -/

/-- A type that a constructor makes from types that exist. -/
inductive Made (t : TypeTable) : DataType → Prop where
  | void : Made t ⟨"void", 0, .void, .void, rfl⟩
  | atom (size : Nat) (a : Atom) : Made t (.atom size a)
  | pointer (size : Nat) {pointee : TypeId} (wordSize : Nat) : t.Has pointee →
      Made t ⟨t.name pointee ++ " *", size, .ptr, .pointer pointee wordSize, rfl⟩
  | array {element : TypeId} {count : Nat} : t.Has element → 0 < t.size element → 0 < count →
      t.size element * count < UInt32.size →
      Made t ⟨t.name element ++ "[" ++ toString count ++ "]", t.size element * count,
        .array, .array element count, rfl⟩
  | struct (name : String) {size : Nat} {fields : List Field} :
      (∀ field ∈ fields, t.Has field.type) →
      fields.Pairwise (fun x y => t.fieldEnd x ≤ y.offset) →
      (∀ field ∈ fields, t.fieldEnd field ≤ size) →
      Made t ⟨name, size, .struct, .struct fields, rfl⟩
  | union (name : String) {size : Nat} {fields : List Field} :
      (∀ field ∈ fields, t.Has field.type) →
      (∀ field ∈ fields, field.offset = 0 ∧ t.size field.type ≤ size) →
      Made t ⟨name, size, .union, .union fields, rfl⟩
  | spacebase (space : SpaceId) (spaceName : String) :
      Made t ⟨spaceName ++ "base", 1, .spacebase, .spacebase space, rfl⟩

/-- The name of a type stays the same. -/
theorem Extends.name (h : t.Extends u) {id : Nat} (hid : t.Has id) : u.name id = t.name id := by
  rw [TypeTable.name, TypeTable.name, h.get hid]

/-- The end of a field stays the same. -/
theorem Extends.fieldEnd (h : t.Extends u) {field : Field} (hf : t.Has field.type) :
    u.fieldEnd field = t.fieldEnd field := by
  rw [TypeTable.fieldEnd, TypeTable.fieldEnd, h.size hf]

/-- What was made from the types of a table could be made in every later table. -/
theorem Made.mono (h : t.Made d) (hu : t.Extends u) : u.Made d := by
  cases h with
  | void => exact .void
  | atom size a => exact .atom size a
  | pointer size wordSize hp =>
    rw [← hu.name hp]
    exact .pointer size wordSize (hu.has hp)
  | array he hsize hcount hfits =>
    rw [← hu.name he, ← hu.size he]
    rw [← hu.size he] at hsize hfits
    exact .array (hu.has he) hsize hcount hfits
  | struct name hf hplaced hends =>
    refine .struct name (fun field hfield => hu.has (hf field hfield)) ?_ ?_
    · refine hplaced.imp_of_mem fun {x y} hx _ hxy => ?_
      rw [hu.fieldEnd (hf x hx)]
      exact hxy
    · intro field hfield
      rw [hu.fieldEnd (hf field hfield)]
      exact hends field hfield
  | union name hf hfits =>
    refine .union name (fun field hfield => hu.has (hf field hfield)) fun field hfield => ?_
    rw [hu.size (hf field hfield)]
    exact hfits field hfield
  | spacebase space spaceName => exact .spacebase space spaceName

/-- Types with one key have one size and one shape, unless the key is a name that was given. -/
theorem Made.same_of_key (h : t.Made d) (h' : t.Made d') (hkey : d.key = d'.key)
    (hnamed : ∀ name, d'.key ≠ .named name) : d.size = d'.size ∧ d.shape = d'.shape := by
  cases h' with
  | struct name => exact absurd rfl (hnamed name)
  | union name => exact absurd rfl (hnamed name)
  | _ => cases h <;> simp_all [DataType.key, DataType.atom]

/-- Every type of a table is one that a constructor makes. -/
def AllMade (t : TypeTable) : Prop := ∀ entry ∈ t.types, t.Made entry.toDataType

/-- A type that exists is in the list. -/
theorem get_mem {id : Nat} (hid : t.Has id) : t.get id ∈ t.types := by
  rw [TypeTable.get, Array.getElem?_eq_getElem hid]
  exact Array.getElem_mem hid

/-- Every type that exists was made. -/
theorem AllMade.get (h : t.AllMade) {id : Nat} (hid : t.Has id) :
    t.Made (t.get id).toDataType :=
  h _ (get_mem hid)

/-- Interning a type that can be made keeps all types made. -/
theorem AllMade.intern (h : t.AllMade) (hd : t.Made d) : (t.intern d).table.AllMade := by
  have hext := t.intern_extends d
  cases hf : t.find? d.key with
  | some found =>
    rw [intern_of_find? hf]
    exact h
  | none =>
    intro x hx
    refine Made.mono ?_ hext
    rw [intern_of_find?_none hf] at hx
    rcases Array.mem_push.mp hx with hold | rfl
    · exact h x hold
    · exact hd

/-- An interned type has the size and shape it was asked for, unless a name decided. -/
theorem AllMade.same_intern (h : t.AllMade) (hd : t.Made d) (hnamed : ∀ name, d.key ≠ .named name) :
    (t.intern d).table.size (t.intern d).id = d.size ∧
      (t.intern d).table.shape (t.intern d).id = d.shape :=
  ((h.intern hd).get (t.intern_has d)).same_of_key (hd.mono (t.intern_extends d))
    (t.key_intern d) hnamed

/-- Whether a key tells all of a type. The key of a structure or union leaves out its layout, and
that of the contents of a space its name. -/
def keyTellsAll : TypeKey → Bool
  | .named _ => false
  | .spacebase _ => false
  | _ => true

private theorem Made.eq_of_key (h : t.Made d) (h' : t.Made d') (hkey : d.key = d'.key)
    (hall : keyTellsAll d'.key = true) : d = d' := by
  cases h' with
  | struct name => cases hall
  | union name => cases hall
  | spacebase space => cases hall
  | _ => cases h <;> simp_all [DataType.key, DataType.atom]

/-- An interned type is the one that was asked for if its key tells all of it. -/
theorem AllMade.get_intern (h : t.AllMade) (hd : t.Made d) (hall : keyTellsAll d.key = true) :
    ((t.intern d).table.get (t.intern d).id).toDataType = d :=
  ((h.intern hd).get (t.intern_has d)).eq_of_key (hd.mono (t.intern_extends d)) (t.key_intern d)
    hall

/-! ## Keys -/

/-- No two types of a table have one key. -/
def Distinct (t : TypeTable) : Prop :=
  ∀ i j : Nat, t.Has i → t.Has j → (t.get i).key = (t.get j).key → i = j

private theorem find?_eq_none_iff {key : TypeKey} :
    t.find? key = none ↔ ∀ id, t.Has id → (t.get id).key ≠ key := by
  constructor
  · intro h id hid hkey
    rw [find?_eq_findIdx?] at h
    have hx := Array.findIdx?_eq_none_iff.mp h t.types[id] (Array.getElem_mem hid)
    rw [TypeTable.get, Array.getElem?_eq_getElem hid, Option.getD_some] at hkey
    simp [hkey] at hx
  · intro h
    cases hf : t.find? key with
    | none => rfl
    | some id =>
      obtain ⟨hid, hkey, -⟩ := find?_eq_some_iff.mp hf
      exact absurd hkey (h id hid)

/-- In a table without duplicates the index leads to the one type with a key. -/
theorem Distinct.find?_iff (h : t.Distinct) {key : TypeKey} {id : Nat} :
    t.find? key = some id ↔ ∃ entry, t.types[id]? = some entry ∧ entry.key = key := by
  have hget {entry : TypeEntry} (he : t.types[id]? = some entry) : t.get id = entry := by
    rw [TypeTable.get, he, Option.getD_some]
  rw [find?_eq_some_iff]
  constructor
  · rintro ⟨hid, hkey, -⟩
    have he := Array.getElem?_eq_getElem hid
    exact ⟨_, he, hget he ▸ hkey⟩
  · rintro ⟨entry, he, hkey⟩
    have hid : t.Has id := (Array.getElem?_eq_some_iff.mp he).1
    rw [← hget he] at hkey
    refine ⟨hid, hkey, fun j hj hsame => ?_⟩
    exact Nat.ne_of_lt hj (h j id (Nat.lt_trans hj hid) hid (hsame.trans hkey.symm))

/-- Interning keeps types with one key at one place. -/
theorem Distinct.intern (h : t.Distinct) (d : DataType) : (t.intern d).table.Distinct := by
  have hext := t.intern_extends d
  have hkey := t.key_intern d
  cases hf : t.find? d.key with
  | some found =>
    rw [intern_of_find? hf]
    exact h
  | none =>
    have hnew := find?_eq_none_iff.mp hf
    rw [intern_of_find?_none hf] at hext hkey ⊢
    intro i j hi hj hij
    rcases has_push_iff.mp hi with hi | rfl
    · rcases has_push_iff.mp hj with hj | rfl
      · rw [hext.get hi, hext.get hj] at hij
        exact h i j hi hj hij
      · rw [hext.get hi, hkey] at hij
        exact absurd hij (hnew i hi)
    · rcases has_push_iff.mp hj with hj | rfl
      · rw [hext.get hj, hkey] at hij
        exact absurd hij.symm (hnew j hj)
      · rfl

/-- The key of a type depends on its size, its shape and, where it is a structure or a union, its
name. -/
theorem key_eq (hsize : d.size = d'.size) (hshape : d.shape = d'.shape)
    (hname : d.metatype = .struct ∨ d.metatype = .union → d.name = d'.name) :
    d.key = d'.key := by
  rw [DataType.key, DataType.key, ← hshape, ← hsize]
  rw [d.agrees] at hname
  cases hs : d.shape with
  | struct fields => simp only [hname (Or.inl (by rw [hs]; rfl))]
  | union fields => simp only [hname (Or.inr (by rw [hs]; rfl))]
  | _ => rfl

/-! ## Calls -/

/-- The second table is reached from the first by interning types that constructors make. -/
inductive Builds (t : TypeTable) : TypeTable → Prop where
  | refl : Builds t t
  | intern {u : TypeTable} {d : DataType} : Builds t u → u.Made d → Builds t (u.intern d).table

/-- Building keeps all types made. -/
theorem Builds.allMade (h : t.Builds u) (ht : t.AllMade) : u.AllMade := by
  induction h with
  | refl => exact ht
  | intern _ hd ih => exact ih.intern hd

/-- Building keeps types with one key at one place. -/
theorem Builds.distinct (h : t.Builds u) (ht : t.Distinct) : u.Distinct := by
  induction h with
  | refl => exact ht
  | intern _ _ ih => exact ih.intern _

/-- Fields are in place if each of them starts after the one before it and ends in time. -/
theorem misplacedField?_eq_none_iff {size start : Nat} {fields : List Field} :
    t.misplacedField? size start fields = none ↔
      (∀ field ∈ fields, start ≤ field.offset ∧ t.fieldEnd field ≤ size) ∧
        fields.Pairwise (fun x y => t.fieldEnd x ≤ y.offset) := by
  induction fields generalizing start with
  | nil => simp [misplacedField?]
  | cons field rest ih =>
    rw [misplacedField?]
    split
    · rename_i hplace
      rw [ih]
      have hstart : start ≤ t.fieldEnd field := by
        rw [fieldEnd]
        omega
      constructor
      · rintro ⟨hrest, hpairs⟩
        refine ⟨?_, List.pairwise_cons.mpr ⟨fun y hy => (hrest y hy).1, hpairs⟩⟩
        intro x hx
        rcases List.mem_cons.mp hx with rfl | hx
        · exact hplace
        · exact ⟨Nat.le_trans hstart (hrest x hx).1, (hrest x hx).2⟩
      · rintro ⟨hall, hpairs⟩
        obtain ⟨hfirst, hpairs⟩ := List.pairwise_cons.mp hpairs
        exact ⟨fun y hy => ⟨hfirst y hy, (hall y (List.mem_cons_of_mem _ hy)).2⟩, hpairs⟩
    · rename_i hplace
      constructor
      · intro h
        cases h
      · intro h
        exact absurd (h.1 field List.mem_cons_self) hplace

/-- A name is free for a type, or given to the same layout already. -/
def Nameable (t : TypeTable) (d : DataType) : Prop :=
  ∀ id < t.types.size, (t.get id).key = d.key → t.size id = d.size ∧ t.shape id = d.shape

instance (t : TypeTable) (d : DataType) : Decidable (t.Nameable d) :=
  inferInstanceAs (Decidable (∀ id < t.types.size, _ → _))

namespace Call

/-- The arguments that a constructor accepts. -/
def Accepted (t : TypeTable) : Call → Prop
  | array element count =>
    0 < count ∧ 0 < t.size element ∧ t.size element * count < UInt32.size
  | struct name size fields =>
    (∀ field ∈ fields, t.fieldEnd field ≤ size) ∧
      fields.Pairwise (fun x y => t.fieldEnd x ≤ y.offset) ∧
      t.Nameable ⟨name, size, .struct, .struct fields, rfl⟩
  | union name size fields =>
    (∀ field ∈ fields, field.offset = 0 ∧ t.size field.type ≤ size) ∧
      t.Nameable ⟨name, size, .union, .union fields, rfl⟩
  | _ => True

instance (t : TypeTable) : (c : Call) → Decidable (c.Accepted t)
  | void => .isTrue trivial
  | base _ _ => .isTrue trivial
  | unknown _ => .isTrue trivial
  | pointer _ _ => .isTrue trivial
  | pointerSized _ _ _ => .isTrue trivial
  | pointerNoDepth _ _ _ => .isTrue trivial
  | pointerStripArray _ _ _ => .isTrue trivial
  | array _ _ => inferInstanceAs (Decidable (_ ∧ _ ∧ _))
  | struct _ _ _ => inferInstanceAs (Decidable (_ ∧ _ ∧ _))
  | union _ _ _ => inferInstanceAs (Decidable (_ ∧ _))
  | spacebase _ _ => .isTrue trivial

/-- What a call asks for. A pointer that never nests three pointers is some pointer. -/
def Describes (t : TypeTable) (d : DataType) : Call → Prop
  | void => d.size = 0 ∧ d.shape = .void
  | base size metatype => d.size = size ∧ d.shape = .atom (Atom.ofMetatype metatype)
  | unknown size => d.size = size ∧ d.shape = .atom .unknown
  | pointer pointee wordSize =>
    d.size = t.pointerSize ∧ d.shape = .pointer pointee (max wordSize 1)
  | pointerSized size pointee wordSize =>
    d.size = size ∧ d.shape = .pointer pointee (max wordSize 1)
  | pointerNoDepth _ _ _ => d.metatype = .ptr
  | pointerStripArray size pointee wordSize =>
    d.size = size ∧ d.shape = .pointer (t.stripArray pointee) (max wordSize 1)
  | array element count => d.size = t.size element * count ∧ d.shape = .array element count
  | struct name size fields => d = ⟨name, size, .struct, .struct fields, rfl⟩
  | union name size fields => d = ⟨name, size, .union, .union fields, rfl⟩
  | spacebase space _ => d.size = 1 ∧ d.shape = .spacebase space

end Call

private theorem named_of_nameable (hd : t.Nameable d) : t.tryNamed d = (t.intern d).answer := by
  rw [tryNamed]
  cases hf : t.find? d.key with
  | none => rfl
  | some id =>
    obtain ⟨hid, hkey, -⟩ := find?_eq_some_iff.mp hf
    rw [intern_of_find? hf]
    exact if_pos (hd id hid hkey)

private theorem Distinct.named_of_not_nameable (h : t.Distinct) (hd : ¬t.Nameable d) :
    t.tryNamed d = .error (.invalidType d.name .redeclared) t := by
  rw [tryNamed]
  cases hf : t.find? d.key with
  | none =>
    refine absurd ?_ hd
    intro id hid hkey
    exact absurd hkey (find?_eq_none_iff.mp hf id hid)
  | some found =>
    refine if_neg fun hsame => hd ?_
    obtain ⟨hfound, hkey, -⟩ := find?_eq_some_iff.mp hf
    intro id hid hkey'
    rw [h id found hid hfound (hkey'.trans hkey.symm)]
    exact hsame

private theorem name_of_key {name : String} (h : d.key = .named name) : d.name = name := by
  rw [DataType.key] at h
  split at h <;> cases h <;> rfl

/-- A type that was given a name has the name and the layout that were asked for. -/
theorem Nameable.get_intern (h : t.Nameable d) (hd : d.key = .named d.name) :
    ((t.intern d).table.get (t.intern d).id).toDataType = d := by
  cases hf : t.find? d.key with
  | none => rw [intern_of_find?_none hf, get_push]
  | some id =>
    rw [intern_of_find? hf]
    obtain ⟨hid, hkey, -⟩ := find?_eq_some_iff.mp hf
    obtain ⟨hsize, hshape⟩ := h id hid hkey
    have hmetatype : (t.get id).metatype = d.metatype := by
      rw [(t.get id).agrees, d.agrees]
      exact congrArg Shape.metatype hshape
    exact DataType.ext (name_of_key (hkey.trans hd)) hsize hmetatype hshape

/-- A named type that is built is the one that was asked for. -/
theorem Distinct.get_named {result : Interned} (h : t.Distinct) (hd : d.key = .named d.name)
    (hok : t.tryNamed d = result.answer) : (result.table.get result.id).toDataType = d := by
  have hnameable : t.Nameable d := by
    by_contra hnot
    rw [h.named_of_not_nameable hnot] at hok
    cases hok
  rw [named_of_nameable hnameable, Interned.answer_inj] at hok
  rw [← hok]
  exact hnameable.get_intern hd

/-- A structure that is built has the name that was asked for. -/
theorem Distinct.name_struct {result : Interned} {name : String} {size : Nat} {fields : List Field}
    (h : t.Distinct) (hok : t.tryStruct name size fields = result.answer) :
    result.table.name result.id = name := by
  rw [TypeTable.tryStruct] at hok
  split at hok
  · cases hok
  · exact congrArg DataType.name (h.get_named rfl hok)

/-- A union that is built has the name that was asked for. -/
theorem Distinct.name_union {result : Interned} {name : String} {size : Nat} {fields : List Field}
    (h : t.Distinct) (hok : t.tryUnion name size fields = result.answer) :
    result.table.name result.id = name := by
  rw [TypeTable.tryUnion] at hok
  split at hok
  · cases hok
  · exact congrArg DataType.name (h.get_named rfl hok)

section Answers

variable {c : Call}

/-- An acceptable structure is interned. -/
theorem Call.run_struct {name : String} {size : Nat} {fields : List Field}
    (h : (Call.struct name size fields).Accepted t) :
    (Call.struct name size fields).run t =
      (t.intern ⟨name, size, .struct, .struct fields, rfl⟩).answer := by
  obtain ⟨hends, hplaced, hname⟩ := h
  have hnone : t.misplacedField? size 0 fields = none :=
    misplacedField?_eq_none_iff.mpr ⟨fun x hx => ⟨Nat.zero_le _, hends x hx⟩, hplaced⟩
  rw [Call.run, TypeTable.tryStruct, hnone]
  exact named_of_nameable hname

/-- An acceptable union is interned. -/
theorem Call.run_union {name : String} {size : Nat} {fields : List Field}
    (h : (Call.union name size fields).Accepted t) :
    (Call.union name size fields).run t =
      (t.intern ⟨name, size, .union, .union fields, rfl⟩).answer := by
  obtain ⟨hfits, hname⟩ := h
  have hnone : fields.find? (fun field => field.offset ≠ 0 ∨ size < t.size field.type) = none :=
    List.find?_eq_none.mpr fun x hx => by simpa using hfits x hx
  rw [Call.run, TypeTable.tryUnion, hnone]
  exact named_of_nameable hname

/-- A constructor that accepts its arguments gives the type they describe. -/
theorem Call.describes (hmade : t.AllMade) (ht : t.WellFormed) (hc : ∀ id ∈ c.arguments, t.Has id)
    (hok : c.Accepted t) :
    ∃ result, c.run t = Interned.answer result ∧ t.Builds result.table ∧
      c.Describes t (result.table.get result.id).toDataType := by
  have hintern {d : DataType} (hd : t.Made d) : t.Builds (t.intern d).table := .intern .refl hd
  have hpointer (size : Nat) {pointee : Nat} (wordSize : Nat) (hp : t.Has pointee) :
      t.Made ⟨t.name pointee ++ " *", size, .ptr, .pointer pointee (max wordSize 1), rfl⟩ :=
    .pointer size _ hp
  cases c with
  | void => exact ⟨_, rfl, hintern .void, hmade.same_intern .void fun _ => TypeKey.noConfusion⟩
  | base size metatype =>
    exact ⟨_, rfl, hintern (.atom size _),
      hmade.same_intern (.atom size _) fun _ => TypeKey.noConfusion⟩
  | unknown size =>
    exact ⟨_, rfl, hintern (.atom size _),
      hmade.same_intern (.atom size _) fun _ => TypeKey.noConfusion⟩
  | pointer pointee wordSize =>
    have hd := hpointer t.pointerSize wordSize (hc pointee (List.mem_singleton_self _))
    exact ⟨_, rfl, hintern hd, hmade.same_intern hd fun _ => TypeKey.noConfusion⟩
  | pointerSized size pointee wordSize =>
    have hd := hpointer size wordSize (hc pointee (List.mem_singleton_self _))
    exact ⟨_, rfl, hintern hd, hmade.same_intern hd fun _ => TypeKey.noConfusion⟩
  | pointerStripArray size pointee wordSize =>
    have hd := hpointer size wordSize (ht.has_stripArray (hc pointee (List.mem_singleton_self _)))
    exact ⟨_, rfl, hintern hd, hmade.same_intern hd fun _ => TypeKey.noConfusion⟩
  | pointerNoDepth size pointee wordSize =>
    have hp := hc pointee (List.mem_singleton_self _)
    refine ⟨_, rfl, ?_, ?_⟩
    · rw [pointerNoDepth_eq]
      cases t.nesting pointee with
      | shallow => exact hintern (hpointer size wordSize hp)
      | deep =>
        exact .intern (.intern .refl (.atom _ _)) (.pointer size _ (intern_has ..))
      | full => exact .refl
    · rcases t.isPointer_pointerNoDepth size pointee wordSize with h | ⟨heq, h⟩
      · exact h.metatype
      · rw [heq]
        exact h
  | array element count =>
    obtain ⟨hcount, hsize, hfits⟩ := hok
    have hd := Made.array (hc element (List.mem_singleton_self _)) hsize hcount hfits
    refine ⟨_, ?_, hintern hd, hmade.same_intern hd fun _ => TypeKey.noConfusion⟩
    rw [Call.run, TypeTable.tryArray, if_neg (by omega), if_pos hfits]
  | struct name size fields =>
    have hrun := Call.run_struct hok
    obtain ⟨hends, hplaced, hname⟩ := hok
    exact ⟨_, hrun, hintern (.struct name (fun field hf => hc _ (List.mem_map_of_mem hf)) hplaced
      hends), hname.get_intern rfl⟩
  | union name size fields =>
    have hrun := Call.run_union hok
    obtain ⟨hfits, hname⟩ := hok
    exact ⟨_, hrun, hintern (.union name (fun field hf => hc _ (List.mem_map_of_mem hf)) hfits),
      hname.get_intern rfl⟩
  | spacebase space spaceName =>
    exact ⟨_, rfl, hintern (.spacebase space spaceName),
      hmade.same_intern (.spacebase space spaceName) fun _ => TypeKey.noConfusion⟩

/-- A constructor fails on all other arguments and leaves the table as it is. -/
theorem Call.refuses (hdistinct : t.Distinct) (hno : ¬c.Accepted t) :
    ∃ e, c.run t = .error e t := by
  cases c with
  | array element count =>
    rw [Call.run, TypeTable.tryArray]
    split
    · exact ⟨_, rfl⟩
    · rename_i hsized
      split
      · rename_i hfits
        exact absurd ⟨by omega, by omega, hfits⟩ hno
      · exact ⟨_, rfl⟩
  | struct name size fields =>
    rw [Call.run, TypeTable.tryStruct]
    split
    · exact ⟨_, rfl⟩
    · rename_i hplaced
      obtain ⟨hall, hpairs⟩ := misplacedField?_eq_none_iff.mp hplaced
      refine ⟨_, hdistinct.named_of_not_nameable fun hname => hno ⟨?_, hpairs, hname⟩⟩
      exact fun field hf => (hall field hf).2
  | union name size fields =>
    rw [Call.run, TypeTable.tryUnion]
    split
    · exact ⟨_, rfl⟩
    · rename_i hplaced
      refine ⟨_, hdistinct.named_of_not_nameable fun hname => hno ⟨?_, hname⟩⟩
      exact fun field hf => by simpa using List.find?_eq_none.mp hplaced field hf
  | _ => exact absurd trivial hno

/-! ## Calls that are made again -/

/-- Misplaced fields stay misplaced, and no others do. -/
theorem Extends.misplacedField? (h : t.Extends u) {size start : Nat} {fields : List Field}
    (hf : ∀ field ∈ fields, t.Has field.type) :
    u.misplacedField? size start fields = t.misplacedField? size start fields := by
  induction fields generalizing start with
  | nil => rfl
  | cons field rest ih =>
    rw [TypeTable.misplacedField?, TypeTable.misplacedField?,
      h.fieldEnd (hf field List.mem_cons_self), ih fun x hx => hf x (List.mem_cons_of_mem _ hx)]

private theorem named_again (hu : t.Extends u) (hnext : (t.tryNamed d).state.Extends u) :
    u.tryNamed d = (t.tryNamed d).mapState fun _ => u := by
  cases hf : t.find? d.key with
  | some id =>
    obtain ⟨hid, -⟩ := find?_eq_some_iff.mp hf
    simp only [tryNamed, hf, hu.find? hf, hu.size hid, hu.shape hid]
    split <;> rfl
  | none =>
    have hnamed : t.tryNamed d = (t.intern d).answer := by simp only [tryNamed, hf]
    rw [hnamed] at hnext
    have hget : (u.get (t.intern d).id).toDataType = d := by
      rw [hnext.get (t.intern_has d), intern_of_find?_none hf]
      exact congrArg TypeEntry.toDataType (t.get_push d)
    rw [hnamed, tryNamed, hnext.find? (t.find?_intern d)]
    simp only [TypeTable.size, TypeTable.shape, hget, and_self, if_true]
    rfl

/-- A call that is made again in a later table gives the answer it gave before and adds
nothing. -/
theorem Call.run_again (ht : t.WellFormed) (hc : ∀ id ∈ c.arguments, t.Has id)
    (hu : (t.perform c).Extends u) : c.run u = (c.run t).mapState fun _ => u := by
  have htu : t.Extends u := (perform_grown ht hc).extends.trans hu
  cases c with
  | void => exact congrArg Interned.answer (void_again hu)
  | base size metatype => exact congrArg Interned.answer (atom_again hu)
  | unknown size => exact congrArg Interned.answer (atom_again hu)
  | pointer pointee wordSize =>
    rw [Call.run, TypeTable.pointer, htu.pointerSize]
    exact congrArg Interned.answer (pointerSized_again hu)
  | pointerSized size pointee wordSize =>
    exact congrArg Interned.answer (pointerSized_again hu)
  | pointerStripArray size pointee wordSize =>
    have hp := hc pointee (List.mem_singleton_self _)
    rw [Call.run, TypeTable.pointerStripArray, htu.stripArray hp]
    exact congrArg Interned.answer (pointerSized_again hu)
  | pointerNoDepth size pointee wordSize =>
    have hp := hc pointee (List.mem_singleton_self _)
    exact congrArg Interned.answer (pointerNoDepth_again ht hp hu)
  | array element count =>
    have he := hc element (List.mem_singleton_self _)
    simp only [perform, Call.run, TypeTable.tryArray, htu.size he, htu.name he] at hu ⊢
    split
    · rfl
    · split
      · rename_i hsized hfits
        rw [if_neg hsized, if_pos hfits] at hu
        exact congrArg Interned.answer (intern_again hu rfl)
      · rfl
  | struct name size fields =>
    have hf : ∀ field ∈ fields, t.Has field.type := fun x hx => hc _ (List.mem_map_of_mem hx)
    simp only [perform, Call.run, TypeTable.tryStruct, htu.misplacedField? hf] at hu ⊢
    split
    · rfl
    · rename_i hplaced
      rw [hplaced] at hu
      exact named_again htu hu
  | union name size fields =>
    have hfind : fields.find? (fun field => field.offset ≠ 0 ∨ size < u.size field.type) =
        fields.find? (fun field => field.offset ≠ 0 ∨ size < t.size field.type) := by
      refine List.find?_congr fun field hf => ?_
      rw [htu.size (hc _ (List.mem_map_of_mem hf))]
    simp only [perform, Call.run, TypeTable.tryUnion, hfind] at hu ⊢
    split
    · rfl
    · rename_i hplaced
      rw [hplaced] at hu
      exact named_again htu hu
  | spacebase space spaceName => exact congrArg Interned.answer (intern_again hu rfl)

end Answers

/-! ## Tables built by calls -/

/-- A table of types that are where and what they say they are, built from older types, laid out as
they should be, all different and listed by their keys. -/
structure Consistent (t : TypeTable) : Prop where
  /-- A type is stored at its own position. -/
  positions : ∀ (id : TypeId) (entry : TypeEntry), t.types[id]? = some entry → entry.id = id
  /-- The index leads to the one type with a key. -/
  keys : ∀ (key : TypeKey) (id : TypeId), t.index.lookup key = some id ↔
    ∃ entry, t.types[id]? = some entry ∧ entry.key = key
  /-- The stored classification of a type tells what it is made of. -/
  kinds : ∀ id, (t.metatype id = .void ↔ t.shape id = .void) ∧
    (t.metatype id = .ptr ↔ ∃ pointee wordSize, t.shape id = .pointer pointee wordSize) ∧
    (t.metatype id = .array ↔ ∃ element count, t.shape id = .array element count) ∧
    (t.metatype id = .struct ↔ ∃ fields, t.shape id = .struct fields) ∧
    (t.metatype id = .union ↔ ∃ fields, t.shape id = .union fields) ∧
    (t.metatype id = .spacebase ↔ ∃ space, t.shape id = .spacebase space)
  /-- The components of a type are older than the type. -/
  older : ∀ id, ∀ c ∈ (t.shape id).components, c < id
  /-- An array has the size of its elements, of which there are some, and it fits 32 bits. -/
  arrays : ∀ id element count, t.Has id → t.shape id = .array element count →
    t.size id = t.size element * count ∧ 0 < t.size element ∧ 0 < count ∧
      t.size id < UInt32.size
  /-- The fields of a structure are in order, do not overlap and end within it. -/
  structs : ∀ id fields, t.Has id → t.shape id = .struct fields →
    fields.Pairwise (fun x y => x.offset ≤ y.offset ∧ t.fieldEnd x ≤ y.offset) ∧
      ∀ field ∈ fields, t.fieldEnd field ≤ t.size id
  /-- The fields of a union are at its start and no wider than it. -/
  unions : ∀ id fields, t.Has id → t.shape id = .union fields →
    ∀ field ∈ fields, field.offset = 0 ∧ t.size field.type ≤ t.size id
  /-- Types that are alike are one type. -/
  distinct : ∀ i j, t.Has i → t.Has j → t.metatype i = t.metatype j → t.size i = t.size j →
    t.shape i = t.shape j →
    (t.metatype i = .struct ∨ t.metatype i = .union → t.name i = t.name j) → i = j

/-- The size of an array is that of its elements, which are not empty. -/
theorem Made.array_layout (h : t.Made d) {element count : Nat}
    (hs : d.shape = .array element count) :
    d.size = t.size element * count ∧ 0 < t.size element ∧ 0 < count ∧ d.size < UInt32.size := by
  cases h with
  | array _ hsize hcount hfits =>
    cases hs
    exact ⟨rfl, hsize, hcount, hfits⟩
  | _ => cases hs

/-- The fields of a structure are in order and within it. -/
theorem Made.struct_layout (h : t.Made d) {fields : List Field} (hs : d.shape = .struct fields) :
    fields.Pairwise (fun x y => x.offset ≤ y.offset ∧ t.fieldEnd x ≤ y.offset) ∧
      ∀ field ∈ fields, t.fieldEnd field ≤ d.size := by
  cases h with
  | struct _ _ hplaced hends =>
    cases hs
    refine ⟨hplaced.imp fun {x y} hxy => ⟨?_, hxy⟩, hends⟩
    rw [fieldEnd] at hxy
    omega
  | _ => cases hs

/-- The fields of a union start with it and are within it. -/
theorem Made.union_layout (h : t.Made d) {fields : List Field} (hs : d.shape = .union fields) :
    ∀ field ∈ fields, field.offset = 0 ∧ t.size field.type ≤ d.size := by
  cases h with
  | union _ _ hfits =>
    cases hs
    exact hfits
  | _ => cases hs

/-- Each classification goes with one kind of shape. -/
theorem metatype_kinds (t : TypeTable) (id : Nat) :
    (t.metatype id = .void ↔ t.shape id = .void) ∧
      (t.metatype id = .ptr ↔ ∃ pointee wordSize, t.shape id = .pointer pointee wordSize) ∧
      (t.metatype id = .array ↔ ∃ element count, t.shape id = .array element count) ∧
      (t.metatype id = .struct ↔ ∃ fields, t.shape id = .struct fields) ∧
      (t.metatype id = .union ↔ ∃ fields, t.shape id = .union fields) ∧
      (t.metatype id = .spacebase ↔ ∃ space, t.shape id = .spacebase space) := by
  rw [metatype_of_shape rfl]
  cases t.shape id with
  | atom a => cases a <;> simp [Shape.metatype, Atom.metatype]
  | _ => simp [Shape.metatype]

/-- Made types that all differ in their keys make a consistent table. -/
theorem consistent (ht : t.WellFormed) (hmade : t.AllMade) (hdistinct : t.Distinct) :
    t.Consistent where
  positions _ _ h := by
    obtain ⟨hid, rfl⟩ := Array.getElem?_eq_some_iff.mp h
    exact t.positions _ hid
  keys _ _ := hdistinct.find?_iff
  kinds := t.metatype_kinds
  older := ht
  arrays _ _ _ hid hs := (hmade.get hid).array_layout hs
  structs _ _ hid hs := (hmade.get hid).struct_layout hs
  unions _ _ hid hs := (hmade.get hid).union_layout hs
  distinct i j hi hj _ hsize hshape hname := hdistinct i j hi hj (key_eq hsize hshape hname)

/-- Calls only ever add made types with new keys. -/
theorem Reaches.allMade {pointerSize : Nat} (h : Reaches (empty pointerSize) t) :
    t.AllMade ∧ t.Distinct := by
  induction h with
  | refl =>
    refine ⟨fun d hd => absurd hd (Array.not_mem_empty d), fun i _ hi => ?_⟩
    exact absurd hi (Nat.not_lt_zero i)
  | @call u c hu hc ih =>
    obtain ⟨hmade, hdistinct⟩ := ih
    rw [perform]
    by_cases hok : c.Accepted u
    · obtain ⟨result, hrun, hbuilds, -⟩ := Call.describes hmade hu.wellFormed hc hok
      rw [hrun, Interned.answer]
      exact ⟨hbuilds.allMade hmade, hbuilds.distinct hdistinct⟩
    · obtain ⟨e, hrun⟩ := Call.refuses hdistinct hok
      rw [hrun]
      exact ⟨hmade, hdistinct⟩

/-- In every table built by constructor calls no field of a union is wider than the union. -/
theorem Reaches.unionsFit {pointerSize : Nat} (h : Reaches (empty pointerSize) t) :
    t.UnionsFit := by
  intro id field hfield
  obtain ⟨fields, hs, hmem⟩ := mem_unionFields hfield
  have hid : t.Has id := by
    by_contra hnot
    rw [shape_of_not_has hnot] at hs
    cases hs
  exact ((h.allMade.1.get hid).union_layout hs field hmem).2

/-- Every table built by constructor calls, whether they succeeded or failed, is consistent, and a
further call on its types does one of two things. Arguments that the constructor accepts give a
position that holds the type they describe. All others fail and leave the table as it is. The same
call made again, in whatever table further calls have built since, gives the same answer and adds
nothing. -/
theorem Reaches.consistent_calls {pointerSize : Nat} (h : Reaches (empty pointerSize) t) :
    t.Consistent ∧ ∀ c : Call, (∀ id ∈ c.arguments, t.Has id) →
      (c.Accepted t → ∃ id u entry, c.run t = .ok id u ∧ u.types[id]? = some entry ∧
        c.Describes t entry.toDataType) ∧
      (¬c.Accepted t → ∃ e, c.run t = .error e t) ∧
      ∀ u, Reaches (t.perform c) u → c.run u = (c.run t).mapState fun _ => u := by
  have ht := h.wellFormed
  obtain ⟨hmade, hdistinct⟩ := h.allMade
  refine ⟨consistent ht hmade hdistinct, fun c hc => ⟨fun hok => ?_, fun hno => ?_, ?_⟩⟩
  · obtain ⟨result, hrun, -, hdescribes⟩ := Call.describes hmade ht hc hok
    refine ⟨result.id, result.table, _, hrun, ?_, hdescribes⟩
    rw [get, Array.getElem?_eq_getElem (Call.built ht hc hrun).has, Option.getD_some]
  · exact Call.refuses hdistinct hno
  · intro u hu
    have hnext := (Reaches.call c h hc).wellFormed
    exact Call.run_again ht hc (hu.grown hnext).extends

/-- An integer, three of them in a row, a structure with a pointer to it, a union of the two, and a
second structure of a name that is taken. -/
def layouts : TypeTable :=
  (empty 8).perform (.base 4 .int) |>.perform (.array 0 3)
    |>.perform (.struct "s" 16 [⟨0, "a", 0⟩, ⟨4, "b", 1⟩]) |>.perform (.pointer 2 1)
    |>.perform (.union "u" 16 [⟨0, "i", 0⟩, ⟨0, "s", 2⟩]) |>.perform (.struct "s" 8 [⟨0, "a", 0⟩])

/-- The second structure was refused, fields that overlap are refused too, and the first structure
declared again after that is still the third type. -/
theorem layouts_consistent_calls :
    Reaches (empty 8) layouts ∧ layouts.types.size = 5 ∧ layouts.Consistent ∧
      (∃ e, (Call.struct "t" 8 [⟨0, "a", 1⟩, ⟨4, "b", 0⟩]).run layouts = .error e layouts) ∧
      (Call.struct "s" 16 [⟨0, "a", 0⟩, ⟨4, "b", 1⟩]).run (layouts.perform (.pointer 3 1)) =
        .ok 2 (layouts.perform (.pointer 3 1)) := by
  have hreach : Reaches (empty 8) layouts := by
    refine .call _ (.call _ (.call _ (.call _ (.call _ (.call _ .refl ?_) ?_) ?_) ?_) ?_) ?_
    all_goals decide +kernel
  obtain ⟨hconsistent, hcalls⟩ := hreach.consistent_calls
  have hs := (hcalls (.struct "s" 16 [⟨0, "a", 0⟩, ⟨4, "b", 1⟩]) (by decide +kernel)).2.2
    (layouts.perform (.pointer 3 1))
  have hsame : layouts.perform (.struct "s" 16 [⟨0, "a", 0⟩, ⟨4, "b", 1⟩]) = layouts := by
    decide +kernel
  rw [hsame] at hs
  refine ⟨hreach, by decide +kernel, hconsistent, ?_, ?_⟩
  · exact (hcalls _ (by decide +kernel)).2.1 (by decide +kernel)
  · rw [hs (.call _ .refl (by decide +kernel))]
    decide +kernel

end TypeTable

end TypeRecovery
