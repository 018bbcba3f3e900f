import Mathlib.Logic.Relation
import TypeRecovery.Proofs.DataType.Interning
import TypeRecovery.Proofs.Description.Build
import TypeRecovery.Proofs.Description.Grammar

/-!
# Names of types are expressions that denote them

The table composes the names of pointers and arrays from those of their components, as a type
expression is composed of suffixes. So the name of a type that an expression denotes is itself an
expression for the type, as long as the names of declared types are atoms and not those of sized
ones. Only the contents of an address space have a name that is no expression.
-/

namespace TypeRecovery

namespace TypeTable

/-- A type is a component of itself, and so are the components of its components. -/
def MadeOf (t : TypeTable) : TypeId → TypeId → Prop :=
  Relation.ReflTransGen fun id component => component ∈ (t.shape id).components

end TypeTable

namespace TypeExpr

open TypeTable (Reaches)

variable {names : Names} {pointerSize : Nat} {u w : TypeTable} {start t r : Interned}

/-! ## Suffixes -/

/-- The digits of a number are a numeral. -/
theorem numeral_toString {n : Nat} (h : n < UInt32.size) : Numeral (toString n).toList n := by
  rw [Nat.toString_eq_repr, Nat.toList_repr]
  exact ⟨Nat.toDigits 10 n, Or.inl rfl, Nat.toDigits_ne_nil,
    fun _ hc => Nat.isDigit_of_mem_toDigits (by decide) (by decide) hc,
    Nat.ofDigitChars_ten_toDigits, h⟩

/-- How a name shows a suffix. -/
def Suffix.text : Suffix → String
  | star => " *"
  | bracket count => "[" ++ toString count ++ "]"

/-- A suffix was applied to a type. -/
structure Suffix.Applied (suffix : Suffix) (t r : Interned) : Prop where
  /-- The table grew by a call of a constructor. -/
  reaches : t.table.Reaches r.table
  /-- The result exists. -/
  has : r.table.Has r.id
  /-- The result is made of the type. -/
  component : t.id ∈ (r.table.shape r.id).components
  /-- Its name is that of the type followed by the suffix. -/
  name : r.table.name r.id = t.table.name t.id ++ suffix.text
  /-- The name shows the suffix as it is read. -/
  spells : ∃ gap text, suffix.text.toList = gap ++ text ∧ Blanks gap ∧ suffix.Spells text
  /-- Applying the suffix in a later table gives the same type and adds nothing. -/
  again : ∀ w, r.table.Extends w → suffix.apply ⟨t.id, w⟩ = some ⟨r.id, w⟩

private theorem Suffix.applied_star (hmade : t.table.AllMade) (hid : t.table.Has t.id) :
    star.Applied t (t.table.pointer t.id 1) := by
  have hget : ((t.table.pointer t.id 1).table.get (t.table.pointer t.id 1).id).toDataType =
      ⟨t.table.name t.id ++ " *", t.table.pointerSize, .ptr, .pointer t.id 1, rfl⟩ :=
    hmade.get_intern (.pointer _ 1 hid) rfl
  have hgap : Blanks [' '] := by
    intro c hc
    rw [List.mem_singleton.mp hc]
    decide
  refine ⟨Reaches.refl.run (c := .pointer t.id 1) ?_ rfl, t.table.intern_has _, ?_, ?_,
    ⟨[' '], ['*'], rfl, hgap, .star⟩, fun w hw => ?_⟩
  · intro id hmem
    rw [List.mem_singleton.mp hmem]
    exact hid
  · rw [TypeTable.shape, hget]
    exact List.mem_singleton_self _
  · rw [TypeTable.name, hget]
    rfl
  · have hext := (t.table.intern_extends _).trans hw
    refine congrArg some (TypeTable.intern_again hw ?_)
    simp only [DataType.key, hext.pointerSize]

private theorem Suffix.applied_bracket {count : Nat} (hmade : t.table.AllMade)
    (hid : t.table.Has t.id) (h : (bracket count).apply t = some r) :
    (bracket count).Applied t r := by
  have hrun : (TypeTable.Call.array t.id count).run t.table = r.answer :=
    tryArray_eq_iff.mpr h
  simp only [Suffix.apply, Option.ite_none_right_eq_some, Option.some.injEq] at h
  obtain ⟨⟨hcount, hsize, hfits⟩, rfl⟩ := h
  have hget := hmade.get_intern (.array hid hsize hcount hfits) rfl
  -- the elements have bytes, so a count whose array fits 32 bits fits them too
  have hbound : count < UInt32.size :=
    Nat.lt_of_le_of_lt (Nat.le_mul_of_pos_left count hsize) hfits
  have htext : (bracket count).text.toList =
      [] ++ ('[' :: ([] ++ (toString count).toList ++ []) ++ [']']) := by
    simp [Suffix.text]
  refine ⟨Reaches.refl.run (c := .array t.id count) ?_ hrun, t.table.intern_has _, ?_, ?_,
    ⟨[], _, htext, blanks_nil, .bracket blanks_nil (numeral_toString hbound) blanks_nil⟩,
    fun w hw => ?_⟩
  · intro id hmem
    rw [List.mem_singleton.mp hmem]
    exact hid
  · rw [TypeTable.shape, hget]
    exact List.mem_singleton_self _
  · rw [TypeTable.name, hget]
    simp only [Suffix.text, String.append_assoc]
  · have hext := (t.table.intern_extends _).trans hw
    simp only [Suffix.apply, hext.size hid, hext.name hid]
    rw [if_pos ⟨hcount, hsize, hfits⟩]
    exact congrArg some (TypeTable.intern_again hw rfl)

/-- A suffix that applies adds its text to the name. -/
theorem Suffix.applied {suffix : Suffix} (hmade : t.table.AllMade) (hid : t.table.Has t.id)
    (h : suffix.apply t = some r) : suffix.Applied t r := by
  cases suffix with
  | star =>
    cases h
    exact applied_star hmade hid
  | bracket count => exact applied_bracket hmade hid h

/-- Suffixes were applied to a type from left to right. -/
structure Applied (suffixes : List Suffix) (start t : Interned) : Prop where
  /-- The table grew by calls of constructors. -/
  reaches : start.table.Reaches t.table
  /-- The result exists. -/
  has : t.table.Has t.id
  /-- The result is made of the type. -/
  madeOf : t.table.MadeOf t.id start.id
  /-- Its name is that of the type followed by the suffixes. -/
  spells : ∀ atom before, Spells (start.table.name start.id).toList atom before →
    Spells (t.table.name t.id).toList atom (before ++ suffixes)
  /-- Applying the suffixes in a later table gives the same type and adds nothing. -/
  again : ∀ w, t.table.Extends w → suffixes.foldlM Suffix.apply ⟨start.id, w⟩ = some ⟨t.id, w⟩

/-- Suffixes that apply add their texts to the name. -/
theorem applied {suffixes : List Suffix}
    (hreach : (TypeTable.empty pointerSize).Reaches start.table)
    (hid : start.table.Has start.id) (h : suffixes.foldlM Suffix.apply start = some t) :
    Applied suffixes start t := by
  induction suffixes generalizing start with
  | nil =>
    cases h
    exact ⟨.refl, hid, .refl, fun atom before hspells => by rwa [List.append_nil], fun _ _ => rfl⟩
  | cons suffix suffixes ih =>
    rw [List.foldlM_cons, Option.bind_eq_bind, Option.bind_eq_some_iff] at h
    obtain ⟨mid, hmid, hrest⟩ := h
    have hfirst := Suffix.applied hreach.allMade.1 hid hmid
    have hmidReach := hreach.trans hfirst.reaches
    have hothers := ih hmidReach hfirst.has hrest
    have hext := (hothers.reaches.grown hmidReach.wellFormed).extends
    refine ⟨hfirst.reaches.trans hothers.reaches, hothers.has, hothers.madeOf.tail ?_,
      fun atom before hspells => ?_, fun w hw => ?_⟩
    · rw [hext.shape hfirst.has]
      exact hfirst.component
    · obtain ⟨gap, text, htext, hgap, hsuffix⟩ := hfirst.spells
      have hconcat := hspells.concat hgap hsuffix
      rw [List.append_assoc, ← htext, ← String.toList_append, ← hfirst.name] at hconcat
      rw [← List.singleton_append, ← List.append_assoc]
      exact hothers.spells atom _ hconcat
    · rw [List.foldlM_cons, hfirst.again w (hext.trans hw)]
      exact hothers.again w hw

/-! ## Atoms -/

/-- A name that a declared type can be read by. Words that stand alone, such as `void`, need not be
kept out: a declared type that takes one hides the built-in type from all expressions. -/
structure PlainName (name : String) : Prop where
  /-- It has no white space at its ends and does not end like a suffix. -/
  text : AtomText name.toList
  /-- It is not the name of an atom of some size, which other spellings would still denote. -/
  notSized : ∀ size a, ¬SizedName name size a

/-- Declared names are plain and mean types of that name. -/
structure Names.Faithful (names : Names) (t : TypeTable) : Prop where
  /-- Declared names are plain. -/
  plain : ∀ entry ∈ names.declared, PlainName entry.1
  /-- They mean types of the table. -/
  has : names.In t
  /-- The types have these names. -/
  named : ∀ entry ∈ names.declared, t.name entry.2 = entry.1

/-- Declared names stay faithful when the table is extended. -/
theorem Names.Faithful.mono (h : names.Faithful u) (hw : u.Extends w) : names.Faithful w :=
  ⟨h.plain, fun entry hentry => hw.has (h.has entry hentry),
    fun entry hentry => (hw.name (h.has entry hentry)).trans (h.named entry hentry)⟩

private theorem lookup_eq_none (hplain : ∀ entry ∈ names.declared, PlainName entry.1)
    {name : String} (h : ¬PlainName name) : names.declared.lookup name = none := by
  rw [List.lookup_eq_none_iff]
  intro entry hentry
  rw [bne_iff_ne]
  rintro rfl
  exact h (hplain entry hentry)

/-- An atom is named by its word and its size. -/
theorem SizedName.typeName {name : String} {size : Nat} {a : Atom} (h : SizedName name size a) :
    SizedName (a.typeName size) size a := by
  obtain ⟨word, digits, hword, -, hdigits, hpos⟩ := h
  have hbound : size < UInt32.size := by
    obtain ⟨-, -, -, -, -, hbound⟩ := hdigits
    exact hbound
  refine ⟨word, (toString size).toList, hword, ?_, numeral_toString hbound, hpos⟩
  rw [String.ofList_toList]
  cases a <;> cases hword <;> rfl

private theorem SizedName.atomText {name : String} {size : Nat} {a : Atom}
    (h : SizedName name size a) : AtomText name.toList := by
  obtain ⟨word, digits, hword, rfl, hdigits, -⟩ := h
  have hlast (c : Char) (hc : c ∈ (word ++ String.ofList digits).toList.getLast?) : c ∈ digits := by
    rw [String.toList_append, String.toList_ofList, List.getLast?_append,
      List.getLast?_eq_some_getLast hdigits.ne_nil, Option.some_or] at hc
    cases hc
    exact List.getLast_mem hdigits.ne_nil
  refine ⟨⟨fun c hc => ?_, fun c hc => (hdigits.mem (hlast c hc)).1⟩, fun c hc => ?_⟩
  · rw [String.toList_append] at hc
    cases a <;> cases hword <;> cases hc <;> rfl
  · obtain ⟨-, -, hbracket, hstar⟩ := hdigits.mem (hlast c hc)
    exact ⟨hstar, hbracket⟩

/-- The name of a type means the type, in the table of the type and in every later one. -/
structure Canonical (names : Names) (start : Interned) : Prop where
  /-- The name is an atom. -/
  text : AtomText (start.table.name start.id).toList
  /-- The atom means the type. -/
  again : ∀ w, start.table.Extends w → AtomType names w (start.table.name start.id) ⟨start.id, w⟩

/-- A type with a built-in name. -/
theorem canonical_intern {d : DataType} (hmade : u.AllMade) (hd : u.Made d)
    (hall : TypeTable.keyTellsAll d.key = true) (htext : AtomText d.name.toList)
    (hnone : names.declared.lookup d.name = none)
    (hbuiltIn : ∀ w : TypeTable, BuiltIn names w d.name (w.intern d)) :
    Canonical names (u.intern d) := by
  have hname : (u.intern d).table.name (u.intern d).id = d.name :=
    congrArg DataType.name (hmade.get_intern hd hall)
  refine ⟨hname ▸ htext, fun w hw => ?_⟩
  have hagain : w.intern d = ⟨(u.intern d).id, w⟩ := TypeTable.intern_again hw rfl
  rw [hname, ← hagain]
  exact .builtIn hnone (hbuiltIn w)

/-- The name of the type that an atom means denotes it. -/
theorem AtomType.canonical {name : String} (hmade : u.AllMade) (hnames : names.Faithful u)
    (h : AtomType names u name start) (hspace : start.table.metatype start.id ≠ .spacebase) :
    Canonical names start := by
  cases h with
  | @declared id hid =>
    have hentry := Names.mem_of_lookup hid
    have hname : u.name id = name := hnames.named _ hentry
    refine ⟨?_, fun w _ => ?_⟩
    · rw [hname]
      exact (hnames.plain _ hentry).text
    · rw [hname]
      exact .declared hid
  | builtIn hnone hbuiltIn =>
    cases hbuiltIn with
    | void =>
      exact canonical_intern hmade .void rfl (by decide) hnone fun _ => .void
    | code =>
      exact canonical_intern hmade (.atom 1 .code) rfl (by decide) hnone fun _ => .code
    | spacebase =>
      refine absurd ?_ hspace
      exact TypeTable.metatype_of_shape (hmade.same_intern (.spacebase _ _) nofun).2
    | @sized _ size a hsized =>
      -- the name may be spelled otherwise than that of the type, with a sign or zeros
      have hnone' : names.declared.lookup (a.typeName size) = none :=
        lookup_eq_none hnames.plain fun hplain => hplain.notSized size a hsized.typeName
      exact canonical_intern hmade (.atom size a) rfl hsized.typeName.atomText hnone'
        fun _ => .sized hsized.typeName

/-- The type that an atom means is reached. -/
theorem AtomType.reaches {name : String} (hnames : names.In u) (h : AtomType names u name start) :
    u.Reaches start.table ∧ start.table.Has start.id := by
  have hbuilt := built_resolveName hnames (resolveName_eq_ok_iff.mpr h)
  refine ⟨?_, hbuilt.has⟩
  cases h with
  | declared _ => exact .refl
  | builtIn _ hbuiltIn =>
    cases hbuiltIn with
    | void => exact Reaches.refl.run (c := .void) nofun rfl
    | code => exact Reaches.refl.atom 1 .code
    | spacebase => exact Reaches.refl.run (c := .spacebase names.stack names.stackName) nofun rfl
    | @sized _ size a _ => exact Reaches.refl.atom size a

/-! ## Expressions -/

/-- What an expression denotes is the type of an atom with suffixes applied to it. -/
theorem exists_applied {text : String} (hreach : (TypeTable.empty pointerSize).Reaches u)
    (hnames : names.In u) (h : denote names u text = .ok t) :
    ∃ name suffixes start, AtomType names u name start ∧ u.Reaches start.table ∧
      Applied suffixes start t := by
  rw [denote] at h
  split at h
  · rename_i e he
    obtain ⟨atom, suffixes, -, rfl⟩ := parse_eq_ok_iff.mp he
    obtain ⟨start, hstart, hsuffixes⟩ := resolve_ofSuffixes_eq_ok_iff.mp h
    obtain ⟨hstartReach, hid⟩ := hstart.reaches hnames
    exact ⟨_, suffixes, start, hstart, hstartReach,
      applied (hreach.trans hstartReach) hid hsuffixes⟩
  · cases h

/-- The type that a text denotes is reached. -/
theorem reaches_denote {text : String} (hreach : (TypeTable.empty pointerSize).Reaches u)
    (hnames : names.In u) (h : denote names u text = .ok t) : u.Reaches t.table := by
  obtain ⟨name, suffixes, start, -, hstart, happlied⟩ := exists_applied hreach hnames h
  exact hstart.trans happlied.reaches

/-- A type without contents of a space in it is denoted by its own name. -/
theorem denote_name {text : String} (hreach : (TypeTable.empty pointerSize).Reaches u)
    (hnames : names.Faithful u) (h : denote names u text = .ok t)
    (hspace : ∀ c, t.table.MadeOf t.id c → t.table.metatype c ≠ .spacebase)
    (hw : t.table.Extends w) : denote names w (t.table.name t.id) = .ok ⟨t.id, w⟩ := by
  obtain ⟨name, suffixes, start, hstart, hstartReach, happlied⟩ :=
    exists_applied hreach hnames.has h
  have hstartHas := (hstart.reaches hnames.has).2
  have hreach' := hreach.trans hstartReach
  have hext := (happlied.reaches.grown hreach'.wellFormed).extends
  have hcanonical : Canonical names start := by
    refine hstart.canonical hreach.allMade.1 hnames ?_
    rw [← hext.metatype hstartHas]
    exact hspace _ happlied.madeOf
  have hspells : Spells (t.table.name t.id).toList (start.table.name start.id).toList suffixes := by
    refine happlied.spells _ [] ⟨[], [], [], blanks_nil, hcanonical.text, .nil, blanks_nil, ?_⟩
    rw [List.nil_append, List.append_nil, List.append_nil]
  rw [denote, parse_eq_ok_iff.mpr ⟨_, suffixes, hspells, rfl⟩]
  refine resolve_ofSuffixes_eq_ok_iff.mpr ⟨⟨start.id, w⟩, ?_, happlied.again w hw⟩
  rw [String.ofList_toList]
  exact hcanonical.again w (hext.trans hw)

end TypeExpr

namespace Description

open TypeExpr (Names PlainName denote)

variable {pointerSize : Nat} {types types' : Types}

/-! ## Declarations -/

/-- Declarations have made a table by calls of constructors, and its types have the declared
names. -/
structure Types.Faithful (pointerSize : Nat) (types : Types) : Prop where
  /-- The table was made by calls. -/
  reaches : (TypeTable.empty pointerSize).Reaches types.table
  /-- The declared types have their names. -/
  names : types.names.Faithful types.table

/-- A declared type with a plain name keeps the declarations faithful. -/
theorem Types.Faithful.addType (h : types.Faithful pointerSize) {d : TypeDecl}
    (hplain : PlainName d.name) (hok : addType types d = .ok types') :
    types'.Faithful pointerSize := by
  obtain ⟨fields, table, result, hfields, hmade, rfl⟩ := exists_of_addType hok
  obtain ⟨hin, hreach⟩ : FieldsIn types.table (fields, table) ∧ types.table.Reaches table := by
    refine foldlM_keeps (P := fun acc => FieldsIn types.table acc ∧ types.table.Reaches acc.2)
      (fun acc field acc' hacc hstep => ?_) ⟨⟨.refl, by simp⟩, .refl⟩ hfields
    refine ⟨hacc.1.addField h.names.has hstep, ?_⟩
    obtain ⟨result, hresult, hnext⟩ := bind_eq_ok hstep
    cases hnext
    exact hacc.2.trans (TypeExpr.reaches_denote (h.reaches.trans hacc.2)
      (h.names.has.mono hacc.1.grown) hresult)
  have hreach' := h.reaches.trans hreach
  have hbuilt := built_declared hin.types hmade
  obtain ⟨hresult, hname⟩ : table.Reaches result.table ∧
      result.table.name result.id = d.name := by
    rcases hmade with hstruct | hunion
    · exact ⟨TypeTable.Reaches.refl.run (c := .struct _ _ _) hin.types hstruct,
        hreach'.allMade.2.name_struct hstruct⟩
    · exact ⟨TypeTable.Reaches.refl.run (c := .union _ _ _) hin.types hunion,
        hreach'.allMade.2.name_union hunion⟩
  have hold := h.names.mono (hin.grown.extends.trans hbuilt.grown.extends)
  refine ⟨hreach'.trans hresult, fun entry hentry => ?_, fun entry hentry => ?_,
    fun entry hentry => ?_⟩
  · rcases List.mem_cons.mp hentry with rfl | hentry
    · exact hplain
    · exact hold.plain entry hentry
  · rcases List.mem_cons.mp hentry with rfl | hentry
    · exact hbuilt.has
    · exact hold.has entry hentry
  · rcases List.mem_cons.mp hentry with rfl | hentry
    · exact hname
    · exact hold.named entry hentry

/-- Declared types with plain names are faithful. -/
theorem faithful_types {stack : SpaceId} {stackName : String} {decls : List TypeDecl}
    (hplain : ∀ d ∈ decls, PlainName d.name)
    (h : decls.foldlM addType ⟨{ stack, stackName }, TypeTable.empty pointerSize⟩ = .ok types) :
    types.Faithful pointerSize :=
  foldlM_keeps_mem (fun _ d hd _ hacc hstep => hacc.addType (hplain d hd) hstep)
    ⟨.refl, by simp, by simp [Names.In], by simp⟩ h

/-- After any declarations of types with plain names, a type without contents of a space in it that
an expression denotes is denoted by its own name as well, which adds no type. It stays so whatever
types are made in between. -/
theorem denote_name_of_types {stack : SpaceId} {stackName : String} {decls : List TypeDecl}
    (hplain : ∀ d ∈ decls, PlainName d.name)
    (hdecls : decls.foldlM addType ⟨{ stack, stackName }, TypeTable.empty pointerSize⟩ = .ok types)
    {u : TypeTable} (hu : types.table.Reaches u) {text : String} {t : Interned}
    (ht : denote types.names u text = .ok t)
    (hspace : ∀ c, t.table.MadeOf t.id c → t.table.metatype c ≠ .spacebase)
    {w : TypeTable} (hw : t.table.Reaches w) :
    denote types.names w (w.name t.id) = .ok ⟨t.id, w⟩ := by
  have htypes := faithful_types hplain hdecls
  have hreach := htypes.reaches.trans hu
  have hnames := htypes.names.mono (hu.grown htypes.reaches.wellFormed).extends
  have hreach' := hreach.trans (TypeExpr.reaches_denote hreach hnames.has ht)
  have hext := (hw.grown hreach'.wellFormed).extends
  rw [hext.name (TypeExpr.built_denote hnames.has ht).has]
  exact TypeExpr.denote_name hreach hnames ht hspace hext

/-- A structure, and a union one of whose fields points to the structure. -/
def pairDecls : List TypeDecl :=
  [⟨.struct, "pair", 8, [⟨0, "a", "int4"⟩, ⟨4, "b", "int4"⟩]⟩,
    ⟨.union, "word", 8, [⟨0, "i", "uint8"⟩, ⟨0, "p", "pair *"⟩]⟩]

/-- The types that they declare. -/
def pairTypes : Types :=
  ⟨{ declared := [("word", 4), ("pair", 1)], stack := 2, stackName := "stack" },
    (TypeTable.empty 8).perform (.base 4 .int)
      |>.perform (.struct "pair" 8 [⟨0, "a", 0⟩, ⟨4, "b", 0⟩]) |>.perform (.base 8 .uint)
      |>.perform (.pointer 1 1) |>.perform (.union "word" 8 [⟨0, "i", 2⟩, ⟨0, "p", 3⟩])⟩

/-- The table after a pointer to three pointers to the union was made. -/
def pairPointers : TypeTable :=
  pairTypes.table.perform (.pointer 4 1) |>.perform (.array 5 3) |>.perform (.pointer 6 1)

/-- Blanks and a sign do not stand in the name of a type, which denotes it all the same. -/
theorem pairPointers_denote_name :
    (∀ d ∈ pairDecls, PlainName d.name) ∧
      pairDecls.foldlM addType ⟨{ stack := 2, stackName := "stack" }, TypeTable.empty 8⟩ =
        .ok pairTypes ∧
      denote pairTypes.names pairTypes.table " word * [ +3 ] *" = .ok ⟨7, pairPointers⟩ ∧
      (∀ c, pairPointers.metatype c ≠ .spacebase) ∧ pairPointers.name 7 = "word *[3] *" ∧
      denote pairTypes.names (pairPointers.perform .void) "word *[3] *" =
        .ok ⟨7, pairPointers.perform .void⟩ := by
  have hplain : ∀ d ∈ pairDecls, PlainName d.name := by
    intro d hd
    simp only [pairDecls, List.mem_cons, List.not_mem_nil, or_false] at hd
    rcases hd with rfl | rfl
    all_goals
      refine ⟨by decide, fun size a hsized => ?_⟩
      cases TypeExpr.sizedAtom?_eq_some_iff.mpr hsized
  have hdecls : pairDecls.foldlM addType ⟨{ stack := 2, stackName := "stack" }, TypeTable.empty 8⟩ =
      .ok pairTypes := by decide +kernel
  have hdenote : denote pairTypes.names pairTypes.table " word * [ +3 ] *" =
      .ok ⟨7, pairPointers⟩ := by decide +kernel
  have hspace (c : TypeId) : pairPointers.metatype c ≠ .spacebase := by
    have hall : ∀ c < pairPointers.types.size, pairPointers.metatype c ≠ .spacebase := by
      decide +kernel
    by_cases hc : pairPointers.Has c
    · exact hall c hc
    · rw [TypeTable.metatype_of_shape (TypeTable.shape_of_not_has hc)]
      decide
  have hname : pairPointers.name 7 = "word *[3] *" := by decide +kernel
  refine ⟨hplain, hdecls, hdenote, hspace, hname, ?_⟩
  have hlater : (pairPointers.perform .void).name 7 = "word *[3] *" := by decide +kernel
  rw [← hlater]
  exact denote_name_of_types hplain hdecls .refl hdenote (fun c _ => hspace c)
    (.call .void .refl nofun)

end Description

end TypeRecovery
