import Mathlib.Data.List.Forall2
import TypeRecovery.Proofs.DataType.Interning
import TypeRecovery.Proofs.Description.Build
import TypeRecovery.Proofs.Description.Grammar

/-!
# What type expressions mean

The meaning of a type expression is stated without a table of types: built-in types, declared types
by name, and pointers and arrays of them. A table that agrees with the declarations holds one type
for each meaning in use. So a text denotes a type in the table exactly if it has a meaning, and the
type that it denotes has this meaning.
-/

namespace TypeRecovery

/-! ## Meanings -/

/-- What a type expression means, whatever table holds the types. -/
inductive Meaning where
  | void
  /-- The contents of the frame. -/
  | spacebase
  /-- Bytes without components. -/
  | atom (size : Nat) (a : Atom)
  /-- A declared type. -/
  | named (name : String) (size : Nat)
  | pointer (target : Meaning)
  | array (element : Meaning) (count : Nat)
  deriving DecidableEq, Repr

/-- The number of bytes of a type. -/
def Meaning.size (pointerSize : Nat) : Meaning → Nat
  | void => 0
  | spacebase => 1
  | atom size _ => size
  | named _ size => size
  | pointer _ => pointerSize
  | array element count => element.size pointerSize * count

/-- A field of a declared type. -/
structure FieldMeaning where
  /-- Byte at which the field starts. -/
  offset : Nat
  /-- Its name. -/
  name : String
  /-- What its type expression means. -/
  type : Meaning
  deriving DecidableEq, Repr

/-- What a name was declared to stand for. -/
structure Layout where
  /-- How the fields are combined. -/
  kind : Aggregate
  /-- The number of bytes. -/
  size : Nat
  /-- The fields in order. -/
  fields : List FieldMeaning
  deriving DecidableEq, Repr

/-- The fields of a structure follow each other and end within it. Those of a union are at its start
and no wider than it. -/
def Layout.Fits (pointerSize : Nat) (layout : Layout) : Prop :=
  match layout.kind with
  | .struct =>
    layout.fields.Pairwise (fun x y => x.offset + x.type.size pointerSize ≤ y.offset) ∧
      ∀ field ∈ layout.fields, field.offset + field.type.size pointerSize ≤ layout.size
  | .union =>
    ∀ field ∈ layout.fields, field.offset = 0 ∧ field.type.size pointerSize ≤ layout.size

/-- The declarations so far, the latest first. -/
abbrev Declarations := List (String × Layout)

namespace TypeExpr

/-- The meanings of names that are not declared. -/
inductive BuiltInMeans : String → Meaning → Prop where
  | void : BuiltInMeans "void" .void
  | code : BuiltInMeans "code" (.atom 1 .code)
  | spacebase : BuiltInMeans "spacebase" .spacebase
  | sized {name : String} {size : Nat} {a : Atom} : SizedName name size a →
      BuiltInMeans name (.atom size a)

/-- The meaning of a name: declared names win over built-in ones. -/
inductive AtomMeans (env : Declarations) (name : String) : Meaning → Prop where
  | declared {layout : Layout} : env.lookup name = some layout →
      AtomMeans env name (.named name layout.size)
  | builtIn {m : Meaning} : env.lookup name = none → BuiltInMeans name m → AtomMeans env name m

/-- What a suffix makes of the meaning before it. An array has elements, its elements have bytes,
and its size fits 32 bits. -/
def Suffix.extend (pointerSize : Nat) (m : Meaning) : Suffix → Option Meaning
  | star => some (.pointer m)
  | bracket count =>
    if 0 < count ∧ 0 < m.size pointerSize ∧ m.size pointerSize * count < UInt32.size then
      some (.array m count)
    else none

/-- A text of the grammar whose atom means something to which every suffix applies. -/
def Means (env : Declarations) (pointerSize : Nat) (text : String) (m : Meaning) : Prop :=
  ∃ atom suffixes start, Spells text.toList atom suffixes ∧
    AtomMeans env (String.ofList atom) start ∧
    suffixes.foldlM (Suffix.extend pointerSize) start = some m

end TypeExpr

open TypeExpr (Means Names)

/-- A declared field with what its type expression means. -/
structure FieldMeans (env : Declarations) (pointerSize : Nat) (d : FieldDecl) (f : FieldMeaning) :
    Prop where
  /-- The offset is the declared one. -/
  offset : f.offset = d.offset.toNat
  /-- The name is the declared one. -/
  name : f.name = d.name
  /-- The type is what the expression means. -/
  type : Means env pointerSize d.type f.type

/-- A declaration and its layout. The types of the fields were declared before, the layout is in
order, and a name that was declared before keeps its layout. -/
structure DeclaredAs (env : Declarations) (pointerSize : Nat) (d : TypeDecl) (layout : Layout) :
    Prop where
  /-- The fields are combined as declared. -/
  kind : layout.kind = d.kind
  /-- The size is the declared one. -/
  size : layout.size = d.size.toNat
  /-- The fields mean something. -/
  fields : d.fields.Forall₂ (FieldMeans env pointerSize) layout.fields
  /-- They are laid out in order. -/
  fits : layout.Fits pointerSize
  /-- The name is new or stands for the same layout already. -/
  kept : ∀ entry ∈ env, entry.1 = d.name → entry.2 = layout

/-- Declarations one after the other. -/
inductive Declares (pointerSize : Nat) :
    Declarations → List TypeDecl → Declarations → Prop where
  | nil {env : Declarations} : Declares pointerSize env [] env
  | cons {env env' : Declarations} {d : TypeDecl} {rest : List TypeDecl} {layout : Layout} :
      DeclaredAs env pointerSize d layout →
      Declares pointerSize ((d.name, layout) :: env) rest env' →
      Declares pointerSize env (d :: rest) env'

/-! ## Types with a meaning -/

namespace TypeTable

variable {t u : TypeTable} {stack : SpaceId} {id id' : Nat} {m m' : Meaning} {d : DataType}
  {pointerSize : Nat}

/-- The type at a position by its key and its size. -/
structure IsAt (t : TypeTable) (id : TypeId) (key : TypeKey) (size : Nat) : Prop where
  /-- The type exists. -/
  has : t.Has id
  /-- It has the key. -/
  key : (t.get id).key = key
  /-- It has the size. -/
  size : t.size id = size

/-- A type stays at its place when the table is extended. -/
theorem IsAt.mono {key : TypeKey} {size : Nat} (h : t.IsAt id key size) (hu : t.Extends u) :
    u.IsAt id key size :=
  ⟨hu.has h.has, by rw [hu.get h.has, h.key], by rw [hu.size h.has, h.size]⟩

/-- There is one type at a place. -/
theorem IsAt.unique {key key' : TypeKey} {size size' : Nat} (h : t.IsAt id key size)
    (h' : t.IsAt id key' size') : key = key' ∧ size = size' :=
  ⟨h.key.symm.trans h'.key, h.size.symm.trans h'.size⟩

/-- A table holds a type with a meaning at a position. -/
def Realizes (t : TypeTable) (stack : SpaceId) (pointerSize : Nat) : Meaning → TypeId → Prop
  | .void, id => t.IsAt id .void 0
  | .spacebase, id => t.IsAt id (.spacebase stack) 1
  | .atom size a, id => t.IsAt id (.atom size a) size
  | .named name size, id => t.IsAt id (.named name) size
  | .pointer m, id => ∃ target, t.Realizes stack pointerSize m target ∧
      t.IsAt id (.pointer pointerSize target 1) pointerSize
  | .array m count, id => ∃ element, t.Realizes stack pointerSize m element ∧
      t.IsAt id (.array element count) (m.size pointerSize * count)

/-- A type that realizes a meaning has a key and the size of the meaning. -/
theorem Realizes.isAt (h : t.Realizes stack pointerSize m id) :
    ∃ key, t.IsAt id key (m.size pointerSize) := by
  cases m with
  | pointer m =>
    obtain ⟨target, -, hat⟩ := h
    exact ⟨_, hat⟩
  | array m count =>
    obtain ⟨element, -, hat⟩ := h
    exact ⟨_, hat⟩
  | _ => exact ⟨_, h⟩

/-- A type that realizes a meaning exists. -/
theorem Realizes.has (h : t.Realizes stack pointerSize m id) : t.Has id := by
  obtain ⟨key, hat⟩ := h.isAt
  exact hat.has

/-- A type that realizes a meaning has its size. -/
theorem Realizes.size (h : t.Realizes stack pointerSize m id) : t.size id = m.size pointerSize := by
  obtain ⟨key, hat⟩ := h.isAt
  exact hat.size

/-- A type goes on realizing a meaning when the table is extended. -/
theorem Realizes.mono (h : t.Realizes stack pointerSize m id) (hu : t.Extends u) :
    u.Realizes stack pointerSize m id := by
  induction m generalizing id with
  | pointer m ih =>
    obtain ⟨target, htarget, hat⟩ := h
    exact ⟨target, ih htarget, hat.mono hu⟩
  | array m count ih =>
    obtain ⟨element, helement, hat⟩ := h
    exact ⟨element, ih helement, hat.mono hu⟩
  | _ => exact IsAt.mono h hu

/-- A meaning has one type. -/
theorem Realizes.unique_type (ht : t.Distinct) (h : t.Realizes stack pointerSize m id)
    (h' : t.Realizes stack pointerSize m id') : id = id' := by
  have hsame {id id' : Nat} {key : TypeKey} {size : Nat} (h : t.IsAt id key size)
      (h' : t.IsAt id' key size) : id = id' :=
    ht id id' h.has h'.has (h.key.trans h'.key.symm)
  induction m generalizing id id' with
  | pointer m ih =>
    obtain ⟨target, htarget, hat⟩ := h
    obtain ⟨target', htarget', hat'⟩ := h'
    obtain rfl := ih htarget htarget'
    exact hsame hat hat'
  | array m count ih =>
    obtain ⟨element, helement, hat⟩ := h
    obtain ⟨element', helement', hat'⟩ := h'
    obtain rfl := ih helement helement'
    exact hsame hat hat'
  | _ => exact hsame h h'

/-- A type has one meaning. -/
theorem Realizes.unique_meaning (h : t.Realizes stack pointerSize m id)
    (h' : t.Realizes stack pointerSize m' id) : m = m' := by
  -- the key of a type shows the head of its meaning, and what the head is applied to
  induction m generalizing id m' <;> cases m' <;> grind [Realizes, IsAt.unique]

/-- Types that constructors make, no two of them alike, in a table for pointers of a size. -/
structure Regular (t : TypeTable) (pointerSize : Nat) : Prop where
  /-- Every type is one that a constructor makes. -/
  allMade : t.AllMade
  /-- No two types have one key. -/
  distinct : t.Distinct
  /-- Pointers have the size. -/
  pointerSize : t.pointerSize = pointerSize

private theorem regular_empty (pointerSize : Nat) : (empty pointerSize).Regular pointerSize := by
  obtain ⟨hmade, hdistinct⟩ := (Reaches.refl (t := empty pointerSize)).allMade
  exact ⟨hmade, hdistinct, rfl⟩

/-- Interning a type that can be made keeps a table regular. -/
theorem Regular.intern (h : t.Regular pointerSize) (hd : t.Made d) :
    (t.intern d).table.Regular pointerSize :=
  ⟨h.allMade.intern hd, h.distinct.intern d, (t.intern_extends d).pointerSize.trans h.pointerSize⟩

private theorem Regular.isAt_intern (h : t.Regular pointerSize) (hd : t.Made d)
    (hkey : ∀ name, d.key ≠ .named name) :
    (t.intern d).table.IsAt (t.intern d).id d.key d.size :=
  ⟨t.intern_has d, t.key_intern d, (h.allMade.same_intern hd hkey).1⟩

/-- Interning adds one type at most. -/
theorem has_intern (h : (t.intern d).table.Has id) :
    t.Has id ∨ ((t.intern d).table.get id).toDataType = d := by
  cases hf : t.find? d.key with
  | some found =>
    rw [intern_of_find? hf] at h
    exact Or.inl h
  | none =>
    rw [intern_of_find?_none hf] at h ⊢
    rcases has_push_iff.mp h with hold | rfl
    · exact Or.inl hold
    · exact Or.inr (by rw [get_push])

end TypeTable

/-! ## Declared types in a table -/

/-- The type that a declaration asks for. -/
def Aggregate.type (kind : Aggregate) (name : String) (size : Nat) (fields : List Field) :
    DataType :=
  match kind with
  | .struct => ⟨name, size, .struct, .struct fields, rfl⟩
  | .union => ⟨name, size, .union, .union fields, rfl⟩

/-- The call that declares a type. -/
def Aggregate.call (kind : Aggregate) (name : String) (size : Nat) (fields : List Field) :
    TypeTable.Call :=
  match kind with
  | .struct => .struct name size fields
  | .union => .union name size fields

namespace TypeTable

variable {t u : TypeTable} {stack : SpaceId} {pointerSize : Nat} {d : DataType}
  {env : Declarations} {names : Names}

/-- A field with a meaning. -/
structure RealizesField (t : TypeTable) (stack : SpaceId) (pointerSize : Nat) (f : FieldMeaning)
    (field : Field) : Prop where
  /-- The offsets are the same. -/
  offset : field.offset = f.offset
  /-- The names are the same. -/
  name : field.name = f.name
  /-- The type has the meaning. -/
  type : t.Realizes stack pointerSize f.type field.type

/-- A declared type with a layout. -/
structure RealizesLayout (t : TypeTable) (stack : SpaceId) (pointerSize : Nat) (name : String)
    (layout : Layout) (id : TypeId) : Prop where
  /-- The type exists. -/
  has : t.Has id
  /-- It was declared with fields of that meaning. -/
  get : ∃ fields, (t.get id).toDataType = layout.kind.type name layout.size fields ∧
    layout.fields.Forall₂ (t.RealizesField stack pointerSize) fields

/-- A field goes on realizing its meaning when the table is extended. -/
theorem RealizesField.mono {f : FieldMeaning} {field : Field}
    (h : t.RealizesField stack pointerSize f field) (hu : t.Extends u) :
    u.RealizesField stack pointerSize f field :=
  ⟨h.offset, h.name, h.type.mono hu⟩

/-- A layout stays realized when the table is extended. -/
theorem RealizesLayout.mono {name : String} {layout : Layout} {id : TypeId}
    (h : t.RealizesLayout stack pointerSize name layout id) (hu : t.Extends u) :
    u.RealizesLayout stack pointerSize name layout id := by
  obtain ⟨fields, hget, hfields⟩ := h.get
  exact ⟨hu.has h.has, fields, (hu.get h.has).symm ▸ hget, hfields.imp fun _ _ hf => hf.mono hu⟩

@[simp] theorem key_type (kind : Aggregate) (name : String) (size : Nat) (fields : List Field) :
    (kind.type name size fields).key = .named name := by
  cases kind <;> rfl

@[simp] theorem name_type (kind : Aggregate) (name : String) (size : Nat) (fields : List Field) :
    (kind.type name size fields).name = name := by
  cases kind <;> rfl

@[simp] theorem size_type (kind : Aggregate) (name : String) (size : Nat) (fields : List Field) :
    (kind.type name size fields).size = size := by
  cases kind <;> rfl

/-- A type that realizes a layout has its name and its size. -/
theorem RealizesLayout.isAt {name : String} {layout : Layout} {id : TypeId}
    (h : t.RealizesLayout stack pointerSize name layout id) :
    t.IsAt id (.named name) layout.size := by
  obtain ⟨fields, hget, -⟩ := h.get
  exact ⟨h.has, by rw [hget, key_type], by rw [TypeTable.size, hget, size_type]⟩

/-- The declarations so far and the table that was built from them agree. -/
structure Agrees (env : Declarations) (names : Names) (pointerSize : Nat) (t : TypeTable) :
    Prop where
  /-- The table was built by constructors. -/
  regular : t.Regular pointerSize
  /-- Each name stands for a type with the declared layout. -/
  declared : env.Forall₂ (fun entry known =>
    known.1 = entry.1 ∧ t.RealizesLayout names.stack pointerSize entry.1 entry.2 known.2)
    names.declared
  /-- No other structures or unions are in the table. -/
  only : ∀ id name, t.Has id → (t.get id).key = .named name → ∃ layout, (name, layout) ∈ env

/-- Nothing is declared to begin with. -/
theorem agrees_empty (pointerSize : Nat) (stack : SpaceId) (stackName : String) :
    Agrees [] { stack, stackName } pointerSize (empty pointerSize) :=
  ⟨regular_empty pointerSize, .nil, fun id _ hid => absurd hid (Nat.not_lt_zero id)⟩

/-- A type that is not declared can be interned at any time. -/
theorem Agrees.intern (h : Agrees env names pointerSize t) (hd : t.Made d)
    (hkey : ∀ name, d.key ≠ .named name) : Agrees env names pointerSize (t.intern d).table where
  regular := h.regular.intern hd
  declared := h.declared.imp fun _ _ hx => ⟨hx.1, hx.2.mono (t.intern_extends d)⟩
  only id name hid hname := by
    rcases has_intern hid with hold | hnew
    · rw [(t.intern_extends d).get hold] at hname
      exact h.only id name hold hname
    · rw [hnew] at hname
      exact absurd hname (hkey name)

/-- A name is declared exactly if it has a layout, and its type realizes the layout. -/
theorem Agrees.lookup (h : Agrees env names pointerSize t) (name : String) :
    Option.Rel (fun layout id => t.RealizesLayout names.stack pointerSize name layout id)
      (env.lookup name) (names.declared.lookup name) := by
  obtain ⟨-, hdeclared, -⟩ := h
  generalize names.declared = known at hdeclared
  induction hdeclared with
  | nil => exact .none
  | @cons entry known env rest hx _ ih =>
    obtain ⟨hname, hlayout⟩ := hx
    rw [List.lookup_cons, List.lookup_cons, hname]
    split
    · rename_i heq
      rw [eq_of_beq heq]
      exact .some hlayout
    · exact ih

end TypeTable

namespace TypeExpr

open TypeTable (Agrees)

variable {env : Declarations} {names : Names} {pointerSize : Nat} {t u : TypeTable}
  {start r : Interned} {m : Meaning}

/-- A type with a meaning in a table that was grown for it. -/
structure Denotes (env : Declarations) (names : Names) (pointerSize : Nat) (t : TypeTable)
    (r : Interned) (m : Meaning) : Prop where
  /-- The table still agrees with the declarations. -/
  agrees : Agrees env names pointerSize r.table
  /-- The types before are where they were. -/
  grown : t.Extends r.table
  /-- The type has the meaning. -/
  realizes : r.table.Realizes names.stack pointerSize m r.id

/-- A type that is not declared is interned for a meaning. -/
theorem denotes_intern (h : Agrees env names pointerSize u) (hu : t.Extends u) {d : DataType}
    (hd : u.Made d) (hkey : ∀ name, d.key ≠ .named name)
    (hm : (u.intern d).table.IsAt (u.intern d).id d.key d.size →
      (u.intern d).table.Realizes names.stack pointerSize m (u.intern d).id) :
    Denotes env names pointerSize t (u.intern d) m :=
  ⟨h.intern hd hkey, hu.trans (u.intern_extends d), hm (h.regular.isAt_intern hd hkey)⟩

/-! ## Names -/

private theorem Denotes.of_agrees (h : Agrees env names pointerSize t) {id : TypeId}
    (hm : t.Realizes names.stack pointerSize m id) : Denotes env names pointerSize t ⟨id, t⟩ m :=
  ⟨h, .refl t, hm⟩

private theorem denotes_void (h : Agrees env names pointerSize t) :
    Denotes env names pointerSize t t.void .void :=
  denotes_intern h (.refl t) .void (fun _ => TypeKey.noConfusion) id

private theorem denotes_atom (h : Agrees env names pointerSize t) (size : Nat) (a : Atom) :
    Denotes env names pointerSize t (t.atom size a) (.atom size a) :=
  denotes_intern h (.refl t) (.atom size a) (fun _ => TypeKey.noConfusion) id

private theorem denotes_spacebase (h : Agrees env names pointerSize t) :
    Denotes env names pointerSize t (t.spacebase names.stack names.stackName) .spacebase :=
  denotes_intern h (.refl t) (.spacebase _ _) (fun _ => TypeKey.noConfusion) id

/-- A built-in name has a meaning, which its type realizes. -/
theorem BuiltIn.means (h : Agrees env names pointerSize t) {name : String}
    (hname : BuiltIn names t name start) :
    ∃ m, BuiltInMeans name m ∧ Denotes env names pointerSize t start m := by
  cases hname with
  | void => exact ⟨_, .void, denotes_void h⟩
  | code => exact ⟨_, .code, denotes_atom h 1 .code⟩
  | spacebase => exact ⟨_, .spacebase, denotes_spacebase h⟩
  | sized hsized => exact ⟨_, .sized hsized, denotes_atom h _ _⟩

/-- A built-in name with a meaning has a type that realizes it. -/
theorem BuiltInMeans.type (h : Agrees env names pointerSize t) {name : String}
    (hname : BuiltInMeans name m) :
    ∃ start, BuiltIn names t name start ∧ Denotes env names pointerSize t start m := by
  cases hname with
  | void => exact ⟨_, .void, denotes_void h⟩
  | code => exact ⟨_, .code, denotes_atom h 1 .code⟩
  | spacebase => exact ⟨_, .spacebase, denotes_spacebase h⟩
  | sized hsized => exact ⟨_, .sized hsized, denotes_atom h _ _⟩

/-- A name that means a type of the table has a meaning. -/
theorem AtomType.means (h : Agrees env names pointerSize t) {name : String}
    (hname : AtomType names t name start) :
    ∃ m, AtomMeans env name m ∧ Denotes env names pointerSize t start m := by
  have hlookup := h.lookup name
  cases hname with
  | declared hid =>
    rw [hid] at hlookup
    generalize hlayout : env.lookup name = found at hlookup
    cases hlookup with
    | some hreal => exact ⟨_, .declared hlayout, .of_agrees h hreal.isAt⟩
  | builtIn hnone hbuiltIn =>
    rw [hnone] at hlookup
    generalize hlayout : env.lookup name = found at hlookup
    cases hlookup with
    | none =>
      obtain ⟨m, hm, hdenotes⟩ := hbuiltIn.means h
      exact ⟨m, .builtIn hlayout hm, hdenotes⟩

/-- A name that has a meaning means a type of the table. -/
theorem AtomMeans.type (h : Agrees env names pointerSize t) {name : String}
    (hname : AtomMeans env name m) :
    ∃ start, AtomType names t name start ∧ Denotes env names pointerSize t start m := by
  have hlookup := h.lookup name
  cases hname with
  | declared hlayout =>
    rw [hlayout] at hlookup
    generalize hid : names.declared.lookup name = found at hlookup
    cases hlookup with
    | some hreal => exact ⟨_, .declared hid, .of_agrees h hreal.isAt⟩
  | builtIn hnone hbuiltIn =>
    rw [hnone] at hlookup
    generalize hid : names.declared.lookup name = found at hlookup
    cases hlookup with
    | none =>
      obtain ⟨start, hstart, hdenotes⟩ := hbuiltIn.type h
      exact ⟨start, .builtIn hid hstart, hdenotes⟩

/-! ## Suffixes -/

/-- A suffix applies to a type exactly if it applies to its meaning. -/
theorem Denotes.suffix (h : Denotes env names pointerSize t start m) (suffix : Suffix) :
    Option.Rel (Denotes env names pointerSize t) (suffix.apply start)
      (suffix.extend pointerSize m) := by
  have hhas := h.realizes.has
  have hkept (d : DataType) := h.realizes.mono (start.table.intern_extends d)
  cases suffix with
  | star =>
    refine .some (denotes_intern h.agrees h.grown (.pointer _ _ hhas)
      (fun _ => TypeKey.noConfusion) fun hat => ?_)
    rw [h.agrees.regular.pointerSize] at hat ⊢
    exact ⟨start.id, hkept _, hat⟩
  | bracket count =>
    simp only [Suffix.apply, Suffix.extend, ← h.realizes.size]
    split
    · rename_i hfits
      refine .some (denotes_intern h.agrees h.grown (.array hhas hfits.2.1 hfits.1 hfits.2.2)
        (fun _ => TypeKey.noConfusion) fun hat => ⟨start.id, hkept _, ?_⟩)
      rwa [← h.realizes.size]
    · exact .none

/-- Suffixes apply to a type exactly if they apply to its meaning. -/
theorem Denotes.suffixes (h : Denotes env names pointerSize t start m) (suffixes : List Suffix) :
    Option.Rel (Denotes env names pointerSize t) (suffixes.foldlM Suffix.apply start)
      (suffixes.foldlM (Suffix.extend pointerSize) m) := by
  induction suffixes generalizing start m with
  | nil => exact .some h
  | cons suffix rest ih =>
    rw [List.foldlM_cons, List.foldlM_cons]
    have hfirst := h.suffix suffix
    generalize suffix.apply start = applied at hfirst
    generalize suffix.extend pointerSize m = extended at hfirst
    cases hfirst with
    | none => exact .none
    | some hdenotes => exact ih hdenotes

/-- A text that denotes a type has a meaning. -/
theorem means_of_denote (h : Agrees env names pointerSize t) {text : String}
    (hr : denote names t text = .ok r) :
    ∃ m, Means env pointerSize text m ∧ Denotes env names pointerSize t r m := by
  rw [denote] at hr
  split at hr
  · rename_i e he
    obtain ⟨atom, suffixes, hspells, rfl⟩ := parse_eq_ok_iff.mp he
    obtain ⟨start, hstart, happly⟩ := resolve_ofSuffixes_eq_ok_iff.mp hr
    obtain ⟨m, hm, hdenotes⟩ := hstart.means h
    have hrel := hdenotes.suffixes suffixes
    rw [happly] at hrel
    generalize hextend : suffixes.foldlM (Suffix.extend pointerSize) m = extended at hrel
    cases hrel with
    | some hresult => exact ⟨_, ⟨atom, suffixes, m, hspells, hm, hextend⟩, hresult⟩
  · cases hr

/-- A text that has a meaning denotes a type. -/
theorem denote_of_means (h : Agrees env names pointerSize t) {text : String}
    (hm : Means env pointerSize text m) :
    ∃ r, denote names t text = .ok r ∧ Denotes env names pointerSize t r m := by
  obtain ⟨atom, suffixes, start, hspells, hstart, hextend⟩ := hm
  obtain ⟨type, htype, hdenotes⟩ := hstart.type h
  have hrel := hdenotes.suffixes suffixes
  rw [hextend] at hrel
  generalize happly : suffixes.foldlM Suffix.apply type = applied at hrel
  cases hrel with
  | some hresult =>
    refine ⟨_, ?_, hresult⟩
    rw [denote, parse_eq_ok_iff.mpr ⟨atom, suffixes, hspells, rfl⟩]
    exact resolve_ofSuffixes_eq_ok_iff.mpr ⟨type, htype, happly⟩

end TypeExpr

end TypeRecovery
