import Mathlib.Data.List.Nodup
import TypeRecovery.Description.Json
import TypeRecovery.Proofs.Json.RoundTrip

/-!
# Descriptions as text

A description that is written down is read back as it was, with every field, present or not. This
is put together from the fields: a decoder restores what an encoder wrote, for words, numbers, lists
and optional values, and for a record if it does so for each of its fields.
-/

namespace TypeRecovery

namespace Json

/-! ## Fields -/

@[simp] theorem text?_str (text : String) : text? (str text) = some text := rfl

@[simp] theorem bool?_bool (b : Bool) : bool? (.bool b) = some b := rfl

@[simp] theorem uint32?_nat (n : UInt32) : uint32? (nat n.toNat) = some n := by
  simp [uint32?, nat?, nat, n.toNat_lt_size]

@[simp] theorem uint64?_nat (n : UInt64) : uint64? (nat n.toNat) = some n := by
  simp [uint64?, nat?, nat, n.toNat_lt_size]

@[simp] theorem word?_str {α : Type} (ofName? : String → Option α) (name : String) :
    word? ofName? (str name) = ofName? name := rfl

/-- The decoder gives back what the encoder was given. -/
def Restores {α : Type} (decode : Json → Option α) (encode : α → Json) : Prop :=
  ∀ x, decode (encode x) = some x

section Restores

variable {α : Type} {decode : Json → Option α} {encode : α → Json}

/-- A list is decoded item by item. -/
theorem Restores.mapM (h : Restores decode encode) (items : List α) :
    (items.map encode).mapM decode = some items := by
  induction items with
  | nil => rfl
  | cons x xs ih => simp [h x, ih]

/-- Lists are restored if their items are. -/
theorem Restores.list (h : Restores decode encode) : Restores (list? decode) (Json.list encode) :=
  h.mapM

/-- A value that is not there is null, and no other is. -/
theorem Restores.optional (h : Restores decode encode) (hnull : ∀ x, encode x ≠ .null) :
    Restores (nullable? decode) (Json.optional encode) := by
  rintro (_ | x)
  · rfl
  · rw [Json.optional, nullable?.eq_2 _ _ (hnull x), h x, Option.map_some]

private theorem restores_optionalText : Restores (nullable? text?) (Json.optional str) :=
  Restores.optional text?_str fun _ => Json.noConfusion

private theorem restores_optionalWord :
    Restores (nullable? uint64?) (Json.optional fun m : UInt64 => .nat m.toNat) :=
  Restores.optional uint64?_nat fun _ => Json.noConfusion

end Restores

/-! ## Records -/

private theorem occurrences_record (members : List (String × Json)) (name : String) :
    occurrences (members.map fun (key, value) => (some key, value)) name =
      (members.map (·.1)).count name := by
  induction members with
  | nil => rfl
  | cons member members ih =>
    simp only [occurrences] at ih
    simp [occurrences, ih, List.count_cons, List.countP_cons]

/-- Literal keys are told apart here: to unfold the search would compare them byte by byte. -/
@[simp] theorem lookup_cons_of_ne {name key : String} (h : name ≠ key) (value : Json)
    (members : List (String × Json)) :
    ((key, value) :: members).lookup name = members.lookup name := by
  rw [List.lookup_cons, beq_false_of_ne h]

private theorem find?_record (members : List (String × Json)) (name : String) :
    ((members.map fun (key, value) => ((some key : Text), value)).find?
      fun member => member.1 = some name).map (·.2) = members.lookup name := by
  induction members with
  | nil => rfl
  | cons member members ih =>
    obtain ⟨key, value⟩ := member
    by_cases h : key = name
    · subst h
      simp
    · simpa [h, lookup_cons_of_ne (Ne.symm h)] using ih

@[simp] theorem Fields.orElse_eq_elim {α : Type} (f : Fields) (name : String)
    (decode : Json → Option α) (value : α) :
    f.orElse name decode value = (f name).elim (some value) decode := by
  cases h : f name <;> simp [orElse, h]

/-- The fields of a record whose keys are distinct. -/
theorem fields?_record (names : List String) {members : List (String × Json)}
    (h : (members.map (·.1)).Nodup) :
    (record members).fields? names = some fun name => members.lookup name := by
  have hsome : (members.map fun (key, value) => ((some key : Text), value)).all (·.1.isSome) := by
    simp
  have honce : names.all fun name =>
      occurrences (members.map fun (key, value) => (some key, value)) name ≤ 1 := by
    simp only [occurrences_record, List.all_eq_true, decide_eq_true_eq]
    exact fun name _ => List.nodup_iff_count_le_one.mp h name
  simp only [record, fields?, memberFields?, hsome, honce, find?_record, Bool.and_self, if_true]

end Json

open Json

private theorem SpaceKind.ofName?_name (kind : SpaceKind) : ofName? kind.name = some kind := by
  cases kind <;> rfl

private theorem Aggregate.ofName?_name (kind : Aggregate) : ofName? kind.name = some kind := by
  cases kind <;> rfl

private theorem HaltKind.ofName?_name (kind : HaltKind) : ofName? kind.name = some kind := by
  cases kind <;> rfl

private theorem Opcode.ofName?_name (opcode : Opcode) : ofName? opcode.name = some opcode := by
  have hall : ∀ o ∈ all, ofName? o.name = some o := by decide +kernel
  refine hall opcode ?_
  cases opcode <;> decide +kernel

/-! ## Declarations -/

private theorem SpaceDecl.restores : Restores ofJson? toJson := by
  intro d
  rw [toJson, ofJson?, fields?_record fieldNames]
  · simp [Fields.required, SpaceKind.ofName?_name]
  · exact (by decide : fieldNames.Nodup)

private theorem FieldDecl.restores : Restores ofJson? toJson := by
  intro d
  rw [toJson, ofJson?, fields?_record fieldNames]
  · simp [Fields.required]
  · exact (by decide : fieldNames.Nodup)

private theorem SymbolDecl.restores : Restores ofJson? toJson := by
  intro d
  rw [toJson, ofJson?, fields?_record fieldNames]
  · simp [Fields.required]
  · exact (by decide : fieldNames.Nodup)

private theorem SymbolPart.restores : Restores ofJson? toJson := by
  intro d
  rw [toJson, ofJson?, fields?_record fieldNames]
  · simp [Fields.required]
  · exact (by decide : fieldNames.Nodup)

/-- A declared value is restored. -/
theorem VarnodeDecl.restores : Restores ofJson? toJson := by
  have hsymbol := SymbolPart.restores.optional fun _ => Json.noConfusion
  intro d
  rw [toJson, ofJson?, fields?_record fieldNames]
  · simp [restores_optionalText d.type,
      restores_optionalWord d.mask, hsymbol d.symbol]
  · exact (by decide : fieldNames.Nodup)

/-- A declared op is restored. -/
theorem OpDecl.restores : Restores ofJson? toJson := by
  have hinputs : Restores (list? text?) (Json.list str) := Restores.list text?_str
  intro d
  rw [toJson, ofJson?, fields?_record fieldNames]
  · simp [Fields.required, Opcode.ofName?_name,
      HaltKind.ofName?_name, hinputs d.inputs, restores_optionalText d.output]
  · exact (by decide : fieldNames.Nodup)

private theorem RecommendationDecl.restores : Restores ofJson? toJson := by
  intro d
  rw [toJson, ofJson?, fields?_record fieldNames]
  · simp [Fields.required]
  · exact (by decide : fieldNames.Nodup)

private theorem PrototypeDecl.restores : Restores ofJson? toJson := by
  intro d
  rw [toJson, ofJson?, fields?_record fieldNames]
  · simp [restores_optionalText d.outputType]
  · exact (by decide : fieldNames.Nodup)

/-! ## Types -/

namespace Json

/-- A number of 32 bits is read as a finite double. -/
theorem isFinite_natural (n : UInt32) : (Number.natural n.toNat).isFinite = true := by
  have hlt : n.toNat < UInt32.size := n.toNat_lt_size
  have hdigits : Decimal.digitCount n.toNat ≤ 20 := by
    refine (Nat.length_toDigits_le_iff (by decide) (by decide)).mpr ?_
    have hsize : UInt32.size = 4294967296 := rfl
    omega
  have hword : n.toNat < UInt64.size := Nat.lt_trans hlt (by decide)
  have hleading : Decimal.leadingDigits n.toNat = (n.toNat, 0) := by
    rw [Decimal.leadingDigits, Nat.sub_eq_zero_of_le hdigits]
    simp [hword]
  simp [Number.isFinite, Decimal.scalesToFinite, hleading]

private theorem allPlain_map {α : Type} {encode : α → Json} {depth : Nat}
    (h : ∀ x, isPlain depth (encode x) = true) (items : List α) :
    allPlain depth (items.map encode) = true := by
  induction items with
  | nil => rfl
  | cons x xs ih => simp [allPlain, h x, ih]

end Json

/-- The fields of a type are plain, so the declaration is not refused for what it nests. -/
theorem TypeDecl.isPlainRecord_toJson (d : TypeDecl) : isPlainRecord d.toJson = true := by
  have hlimit : 0 < nestingLimit := by decide
  have hlimit' : 0 < nestingLimit - 1 := by decide
  have hfield : ∀ f : FieldDecl, isPlain (nestingLimit - 1) f.toJson = true := by
    intro f
    simp [FieldDecl.toJson, record, isPlain, allPlainMembers, str, nat, isFinite_natural, hlimit']
  simp [toJson, isPlainRecord, record, allPlainMembers, isPlain, str, nat, Json.list,
    isFinite_natural, allPlain_map hfield, hlimit]

/-- A declared type is restored. -/
theorem TypeDecl.restores : Restores ofJson? toJson := by
  have hfields := FieldDecl.restores.list
  intro d
  -- the kind is taken out first, and the other fields are read from what is left
  have htag : d.toJson.tagged? "kind" = some (d.kind.name, record [("name", .str d.name),
      ("size", .nat d.size.toNat), ("fields", .list FieldDecl.toJson d.fields)]) := by
    simp [toJson, tagged?, record, str]
  have hplain : (guard (isPlainRecord d.toJson) : Option Unit) = some () :=
    if_pos (isPlainRecord_toJson d)
  rw [ofJson?, hplain, htag]
  simp only [Option.bind_eq_bind, Option.bind_some, Aggregate.ofName?_name]
  rw [fields?_record fieldNames]
  · simp [Fields.required, hfields d.fields]
  · exact (by decide : fieldNames.Nodup)

/-! ## Descriptions -/

private theorem Assoc.set_of_not_mem {κ α : Type} [DecidableEq κ] {key : κ} {l : List (κ × α)}
    (h : key ∉ l.map (·.1)) (value : α) : set key value l = l ++ [(key, value)] := by
  induction l with
  | nil => rfl
  | cons entry l ih =>
    obtain ⟨k, v⟩ := entry
    simp only [List.map_cons, List.mem_cons, not_or] at h
    rw [set, if_neg (Ne.symm h.1), ih h.2, List.cons_append]

namespace Description

/-- Distinct spaces keep their passes and their order. -/
theorem foldl_set_of_nodup {l l' : List (String × UInt32)} (h : ((l ++ l').map (·.1)).Nodup) :
    l'.foldl (fun acc (name, passes) => Assoc.set name passes acc) l = l ++ l' := by
  induction l' generalizing l with
  | nil => simp
  | cons entry l' ih =>
    obtain ⟨name, passes⟩ := entry
    have hnot : name ∉ l.map (·.1) := by
      rw [List.map_append, List.nodup_append] at h
      intro hmem
      exact h.2.2 name hmem name (by simp) rfl
    simp only [List.foldl_cons, Assoc.set_of_not_mem hnot]
    rw [ih (by simpa using h), List.append_assoc, List.singleton_append]

private theorem heritageOfJson?_heritageToJson {heritage : List (String × UInt32)}
    (h : (heritage.map (·.1)).Nodup) :
    heritageOfJson? (heritageToJson heritage) = some heritage := by
  have hmembers : ((heritage.map fun (name, passes) => (name, Json.nat passes.toNat)).map
      fun (key, value) => ((some key : Text), value)).mapM heritageMember? = some heritage := by
    clear h
    induction heritage with
    | nil => rfl
    | cons entry heritage ih => simp_all [heritageMember?]
  rw [heritageToJson, record, heritageOfJson?, hmembers, Option.map_some,
    foldl_set_of_nodup (l := []) (by simpa using h), List.nil_append]

/-- A description in which no space has passes twice is read back from its document. -/
theorem ofJson?_toJson (d : Description) (h : (d.heritage.map (·.1)).Nodup) :
    ofJson? d.toJson = some d := by
  rw [toJson, ofJson?, fields?_record fieldNames]
  · simp [Fields.required, SpaceDecl.restores.list d.spaces,
      TypeDecl.restores.list d.types, SymbolDecl.restores.list d.symbols,
      VarnodeDecl.restores.list d.varnodes, OpDecl.restores.list d.ops,
      RecommendationDecl.restores.list d.recommendations, heritageOfJson?_heritageToJson h,
      PrototypeDecl.restores d.prototype]
  · exact (by decide : fieldNames.Nodup)

/-- A description is read back from its text, in either layout, with every field as it was. -/
theorem parse?_toJson (d : Description) (h : (d.heritage.map (·.1)).Nodup) :
    parse? d.toJson.render = some d ∧ parse? d.toJson.pretty = some d := by
  have hread := ofJson?_toJson d h
  constructor
  · rw [parse?, parse?_render, Option.bind_some, hread]
  · rw [parse?, parse?_pretty, Option.bind_some, hread]

/-- A structure, a union, a stored constant that is as large as it can be, and passes in two
spaces. The name needs escapes. -/
def storedConstant : Description where
  name := "f\t\"\x01\""
  spaces := [⟨"ram", .processor, 8, 1, true⟩, ⟨"stack", .stack, 4294967295, 1, false⟩]
  stackSpace := "stack"
  types := [⟨.struct, "s", 4, [⟨0, "a", "int4"⟩]⟩, ⟨.union, "u", 0, []⟩]
  varnodes := [{ name := "c", size := 8, mask := some 18446744073709551615 },
    { name := "p", type := some "s *", symbol := some ⟨"x", 4⟩ }]
  ops := [{ opcode := .store, inputs := ["p", "p", "c"], halt := .noReturn }]
  heritage := [("stack", 1), ("ram", 4294967295)]

/-- The function that copies a constant is read back from both of its texts. -/
theorem storedConstant_parse? :
    (storedConstant.heritage.map (·.1)).Nodup ∧
      parse? storedConstant.toJson.render = some storedConstant ∧
      parse? storedConstant.toJson.pretty = some storedConstant := by
  have hkeys : (storedConstant.heritage.map (·.1)).Nodup := by decide
  exact ⟨hkeys, parse?_toJson storedConstant hkeys⟩

end Description

end TypeRecovery
