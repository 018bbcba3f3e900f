import TypeRecovery.Proofs.Description.Declarations
import TypeRecovery.Proofs.Description.Exact
import TypeRecovery.Proofs.Description.References

/-!
# Valid descriptions

What it takes for the parts of a description to fit together is said here once for the description
as a whole, and so is what it takes for a function to consist of the described values and ops. The
spaces and the types of a description are accepted exactly if their share of it holds.
-/

namespace TypeRecovery

/-! ## Validity -/

/-- A declared value that an op may write: neither a constant nor an input. -/
def VarnodeDecl.Writable (v : VarnodeDecl) : Prop :=
  v.space ≠ "const" ∧ v.input = false ∧ v.spaceBase = false

namespace Description

open TypeExpr (Means Names)

/-- A space has the name: the space of constants or a declared one. -/
def HasSpace (d : Description) (name : String) : Prop :=
  name = "const" ∨ ∃ s ∈ d.spaces, s.name = name

/-- The declared spaces fit a table, and their names and kinds are not taken. -/
structure ValidSpaces (d : Description) : Prop where
  /-- There is room for them. -/
  count : d.spaces.length ≤ 255
  /-- No two have one name. -/
  names : (d.spaces.map (·.name)).Nodup
  /-- None has the name of the space of constants. -/
  others : ∀ s ∈ d.spaces, s.name ≠ "const"
  /-- None is another space of constants. -/
  kinds : ∀ s ∈ d.spaces, s.kind ≠ .constant

/-- A type expression with a meaning. -/
def HasMeaning (d : Description) (env : Declarations) (text : String) : Prop :=
  ∃ m, Means env d.pointerSize.toNat text m

/-- A declared value with a size, in a space, whose type has a meaning and whose symbol is
declared. -/
structure ValidVarnode (d : Description) (env : Declarations) (v : VarnodeDecl) : Prop where
  /-- It has bytes. -/
  size : v.size ≠ 0
  /-- It is in a space. -/
  space : d.HasSpace v.space
  /-- Its type expression has a meaning. -/
  type : ∀ text ∈ v.type, d.HasMeaning env text
  /-- Its symbol is declared. -/
  symbol : ∀ part ∈ v.symbol, ∃ s ∈ d.symbols, s.name = part.name

/-- A declared op with enough operands, all of them declared, and with a result that an op may
write. -/
structure ValidOp (d : Description) (op : OpDecl) : Prop where
  /-- The operands are declared. -/
  operands : ∀ name ∈ op.inputs, ∃ v ∈ d.varnodes, v.name = name
  /-- There are enough of them. -/
  arity : op.opcode.minInputs ≤ op.inputs.length
  /-- The result is declared, and an op may write it. -/
  result : ∀ name ∈ op.output, ∃ v ∈ d.varnodes, v.name = name ∧ v.Writable

/-- A description whose parts fit together, where the types are declared in order. -/
structure ValidIn (d : Description) (env : Declarations) : Prop where
  /-- The spaces fit a table. -/
  spaces : d.ValidSpaces
  /-- The frame is in a space. -/
  stack : d.HasSpace d.stackSpace
  /-- The types are declared in order. -/
  types : Declares d.pointerSize.toNat [] d.types env
  /-- The types of the symbols have meanings. -/
  symbols : ∀ s ∈ d.symbols, d.HasMeaning env s.type
  /-- No two values have one name. -/
  varnodeNames : (d.varnodes.map (·.name)).Nodup
  /-- The values are valid. -/
  varnodes : ∀ v ∈ d.varnodes, d.ValidVarnode env v
  /-- The ops are valid. -/
  ops : ∀ op ∈ d.ops, d.ValidOp op
  /-- No two ops have one result. -/
  results : (d.ops.filterMap (·.output)).Nodup
  /-- Recommendations are for places in spaces, and their types have meanings. -/
  recommendations : ∀ x ∈ d.recommendations, d.HasSpace x.space ∧ d.HasMeaning env x.type
  /-- Heritage is of spaces. -/
  heritage : ∀ entry ∈ d.heritage, d.HasSpace entry.1
  /-- The returned type has a meaning. -/
  prototype : ∀ text ∈ d.prototype.outputType, d.HasMeaning env text

/-- A description whose parts fit together. -/
def Valid (d : Description) : Prop := ∃ env, d.ValidIn env

/-! ## Spaces -/

/-- The spaces of a table are the space of constants and others with given names. -/
def SpacesAre (t : SpaceTable) (others : List String) : Prop :=
  t.spaces.toList.map (·.name) = "const" :: others

variable {d : Description} {t : SpaceTable} {others : List String}

/-- A space is found at the position of its name. -/
theorem SpacesAre.find? (h : SpacesAre t others) (name : String) :
    t.find? name = ("const" :: others).findIdx? (· = name) := by
  rw [SpaceTable.find?, ← h, List.findIdx?_map, ← List.findIdx?_toArray, Array.toArray_toList]
  rfl

/-- A name is found exactly if it is there. -/
theorem isSome_findIdx?_iff {α : Type} (get : α → String) (xs : Array α) (name : String) :
    (xs.findIdx? (get · = name)).isSome = true ↔ name ∈ xs.toList.map get := by
  have hlist : xs.findIdx? (get · = name) = xs.toList.findIdx? (get · = name) := by
    rw [← List.findIdx?_toArray, Array.toArray_toList]
  rw [hlist, List.findIdx?_isSome, List.any_eq_true, List.mem_map]
  simp

private theorem SpacesAre.isSome_find? (h : SpacesAre t others) (name : String) :
    (t.find? name).isSome = true ↔ name = "const" ∨ name ∈ others := by
  rw [SpaceTable.find?, isSome_findIdx?_iff, h, List.mem_cons]

/-- Only the first space is the one of constants. -/
theorem SpacesAre.eq_constantSpace_iff (h : SpacesAre t others) {name : String} {id : SpaceId}
    (hid : t.find? name = some id) : id = SpaceTable.constantSpace ↔ name = "const" := by
  rw [h.find?, List.findIdx?_cons] at hid
  split at hid
  · rename_i hname
    cases hid
    exact ⟨fun _ => (of_decide_eq_true hname).symm, fun _ => rfl⟩
  · rename_i hname
    obtain ⟨i, -, rfl⟩ := Option.map_eq_some_iff.mp hid
    exact ⟨fun hzero => absurd hzero (Nat.succ_ne_zero i),
      fun hconst => absurd (decide_eq_true hconst.symm) hname⟩

/-- The table has one space more than there are names. -/
theorem SpacesAre.size (h : SpacesAre t others) : t.spaces.size = others.length + 1 := by
  have hlength := congrArg List.length h
  rwa [List.length_map, Array.length_toList, List.length_cons] at hlength

/-- Setting the byte order of a space renames nothing. -/
theorem SpacesAre.setBigEndian (h : SpacesAre t others) (id : SpaceId) (bigEndian : Bool) :
    SpacesAre (t.setBigEndian id bigEndian) others := by
  rw [SpacesAre, ← h]
  refine List.ext_getElem? fun i => ?_
  simp only [SpaceTable.setBigEndian, List.getElem?_map, Array.getElem?_toList,
    Array.getElem?_modify]
  split
  · rw [Option.map_map]
    rfl
  · rfl

/-- A space is added unless its name is taken, it is a space of constants or there is no room. -/
theorem exact_addSpace {s : SpaceDecl} (h : SpacesAre t others) :
    Exact (¬(s.name = "const" ∨ s.name ∈ others) ∧ s.kind ≠ .constant ∧ others.length < 255)
      (fun t' => SpacesAre t' (others ++ [s.name])) (addSpace t s) := by
  have hadd : Exact
      (¬(s.name = "const" ∨ s.name ∈ others) ∧ s.kind ≠ .constant ∧ others.length < 255)
      (fun t' => SpacesAre t' (others ++ [s.name]))
      (t.add s.name s.kind s.addressSize.toNat s.wordSize.toNat) := by
    rw [← h.isSome_find?]
    refine exact_ite fun _ => exact_ite fun _ => ?_
    refine (exact_ite_ok fun _ => ?_).congr ?_
    · rw [SpacesAre, Array.toList_push, List.map_append, h]
      rfl
    · rw [h.size, SpaceTable.capacity]
      omega
  exact hadd.map fun t' ht' => ht'.setBigEndian _ _

/-- The spaces are built exactly if they are valid. -/
theorem exact_buildSpaces (d : Description) :
    Exact d.ValidSpaces (fun t => SpacesAre t (d.spaces.map (·.name))) d.buildSpaces := by
  have hstart : SpacesAre SpaceTable.initial (([] : List SpaceDecl).map (·.name)) := rfl
  have hstep (done : List SpaceDecl) (s : SpaceDecl) (t : SpaceTable)
      (ht : SpacesAre t (done.map (·.name))) :
      Exact ((s.name ≠ "const" ∧ s.kind ≠ .constant) ∧ s.name ∉ done.map (·.name) ∧
          done.length < 255)
        (fun t' => SpacesAre t' ((done ++ [s]).map (·.name))) (addSpace t s) := by
    have hadd := exact_addSpace (s := s) ht
    rw [List.length_map, not_or, and_assoc] at hadd
    rw [List.map_append]
    exact hadd.congr (by tauto)
  refine (exact_foldlM hstep hstart).congr ?_
  rw [eachAfter_and, eachAfter_forall, eachAfter_and, eachAfter_notMem_map,
    eachAfter_length (Nat.zero_le 255), List.length_nil, Nat.zero_add]
  exact ⟨fun h => ⟨h.2.2, h.2.1, fun s hs => (h.1 s hs).1, fun s hs => (h.1 s hs).2⟩,
    fun h => ⟨fun s hs => ⟨h.others s hs, h.kinds s hs⟩, h.names, h.count⟩⟩

/-- A space is found exactly if it is declared. -/
theorem exact_findSpace (h : SpacesAre t (d.spaces.map (·.name))) (name : String) :
    Exact (d.HasSpace name) (fun id => t.find? name = some id) (findSpace t name) := by
  have hiff : (t.find? name).isSome = true ↔ d.HasSpace name := by
    rw [h.isSome_find?, HasSpace, List.mem_map]
  rw [findSpace]
  cases hfind : t.find? name with
  | some id => exact ⟨hiff.mp (by rw [hfind]; rfl), rfl⟩
  | none => exact fun hspace => absurd (hiff.mpr hspace) (by rw [hfind]; exact Bool.false_ne_true)

/-! ## Type expressions -/

open TypeTable (Agrees)

variable {env : Declarations} {names : Names} {r : Routine}

/-- An expression denotes a type exactly if it has a meaning. -/
theorem exact_denoteIn (h : Agrees env names d.pointerSize.toNat r.state.types) (text : String) :
    Exact (d.HasMeaning env text)
      (fun x => Agrees env names d.pointerSize.toNat x.2.state.types ∧ x.2.graph = r.graph)
      (denoteIn names r text) := by
  rw [denoteIn]
  cases hdenote : TypeExpr.denote names r.state.types text with
  | ok t =>
    obtain ⟨m, hm, hdenotes⟩ := TypeExpr.means_of_denote h hdenote
    exact ⟨⟨m, hm⟩, hdenotes.agrees, rfl⟩
  | error e =>
    rintro ⟨m, hm⟩
    obtain ⟨t, ht, -⟩ := TypeExpr.denote_of_means h hm
    rw [hdenote] at ht
    cases ht

end Description

/-! ## The parts of a function -/

/-- What a description says of a value: all but its bits, its links and its symbol. -/
def Varnode.bare (v : Varnode) : Varnode :=
  { v with mask := 0, definition := none, readers := [], entry := none }

/-- The declared value. A constant is cut to its size, and it is an input only if it is the base
register. -/
def VarnodeDecl.node (spaces : SpaceTable) (v : VarnodeDecl) : Varnode where
  address := ⟨(spaces.find? v.space).getD SpaceTable.constantSpace,
    if v.space = "const" then v.offset &&& byteMask v.size.toNat else v.offset⟩
  size := v.size.toNat
  constant := v.space = "const"
  input := v.spaceBase || v.input && v.space ≠ "const"
  addrTied := v.addrTied
  annotation := v.annotation
  spaceBase := v.spaceBase
  mask := 0

/-- An op is the declared one if its operands and its result are the values with the declared
names. -/
structure OpDecl.Describes (value? : String → Option VarnodeId) (d : OpDecl) (op : Op) : Prop where
  /-- It computes the same. -/
  opcode : op.opcode = d.opcode
  /-- Its instruction is at the same place. -/
  offset : op.address.offset = d.address
  /-- The operands are the values with their names. -/
  inputs : d.inputs.Forall₂ (fun name v => value? name = some v) op.inputs
  /-- So is the result. -/
  output : Option.Rel (fun name v => value? name = some v) d.output op.output
  /-- It is as reachable. -/
  dead : op.dead = d.dead
  /-- It leaves the function in the same way. -/
  leaving : op.halt = d.halt
  /-- It stops propagation as declared. -/
  stopsPropagation : op.stopsPropagation = d.stopsPropagation
  /-- It creates its value as declared. -/
  creation : op.creation = d.creation

/-- The values and the ops of a function are given ones, in their order. -/
structure NamedRoutine.MadeOf (n : NamedRoutine) (spaces : List SpaceDecl)
    (values : List VarnodeDecl) (ops : List OpDecl) : Prop where
  /-- The spaces are the space of constants and the declared ones. -/
  spaces : Description.SpacesAre n.routine.graph.spaces (spaces.map (·.name))
  /-- There are as many values. -/
  size : n.routine.graph.varnodes.size = values.length
  /-- Each value is at its position. -/
  value : ∀ (v : Nat) (decl : VarnodeDecl), values[v]? = some decl →
    (n.routine.graph.varnode v).bare = decl.node n.routine.graph.spaces
  /-- There are as many ops. -/
  count : n.routine.graph.ops.size = ops.length
  /-- Each op is at its position. -/
  op : ∀ (o : Nat) (decl : OpDecl), ops[o]? = some decl →
    decl.Describes n.value? (n.routine.graph.op o)
  /-- Each name means the value that has it. -/
  named : ∀ name v, n.value? name = some v ↔ ∃ decl, values[v]? = some decl ∧ decl.name = name

/-- The parts of a graph that a description declares are the same. -/
structure Graph.SameParts (g g' : Graph) : Prop where
  /-- The spaces are the same. -/
  spaces : g'.spaces = g.spaces
  /-- The symbols are the same. -/
  symbols : g'.symbols = g.symbols
  /-- The ops are the same. -/
  ops : g'.ops = g.ops
  /-- The number of values is the same. -/
  size : g'.varnodes.size = g.varnodes.size
  /-- What is declared of the values is the same. -/
  bare : ∀ v, (g'.varnode v).bare = (g.varnode v).bare
  /-- Every value is written by the same op. -/
  definition : ∀ v, (g'.varnode v).definition = (g.varnode v).definition

namespace Graph

variable {g g' g'' : Graph}

/-- The ops are the same. -/
theorem SameParts.op (h : g.SameParts g') (o : OpId) : g'.op o = g.op o := by
  rw [Graph.op, Graph.op, h.ops]

/-- A graph has the parts of itself. -/
theorem SameParts.refl (g : Graph) : g.SameParts g :=
  ⟨rfl, rfl, rfl, rfl, fun _ => rfl, fun _ => rfl⟩

/-- Parts stay the same through several changes. -/
theorem SameParts.trans (h : g.SameParts g') (h' : g'.SameParts g'') : g.SameParts g'' :=
  ⟨h'.spaces.trans h.spaces, h'.symbols.trans h.symbols, h'.ops.trans h.ops, h'.size.trans h.size,
    fun v => (h'.bare v).trans (h.bare v), fun v => (h'.definition v).trans (h.definition v)⟩

/-- A change beside the spaces, the symbols, the ops and the values. -/
theorem SameParts.of_parts (hspaces : g'.spaces = g.spaces) (hsymbols : g'.symbols = g.symbols)
    (hops : g'.ops = g.ops) (hvarnodes : g'.varnodes = g.varnodes) : g.SameParts g' := by
  have hvarnode (v : VarnodeId) : g'.varnode v = g.varnode v := by rw [varnode, varnode, hvarnodes]
  exact ⟨hspaces, hsymbols, hops, by rw [hvarnodes], fun v => by rw [hvarnode],
    fun v => by rw [hvarnode]⟩

private theorem sameParts_modifyVarnode (g : Graph) (v : VarnodeId) {f : Varnode → Varnode}
    (hbare : ∀ node, (f node).bare = node.bare)
    (hdefinition : ∀ node, (f node).definition = node.definition) :
    g.SameParts (g.modifyVarnode v f) :=
  ⟨rfl, rfl, rfl, by simp [modifyVarnode], varnode_modifyVarnode_frame _ hbare g v,
    varnode_modifyVarnode_frame _ hdefinition g v⟩

/-- Binding a symbol adds no part. -/
theorem sameParts_bindSymbol (g : Graph) (v : VarnodeId) (entry : SymbolEntry) :
    g.SameParts (g.bindSymbol v entry) := by
  have h : g.SameParts (g.modifyVarnode v fun node => { node with entry := some g.entries.size }) :=
    g.sameParts_modifyVarnode v (fun _ => rfl) fun _ => rfl
  exact ⟨h.spaces, h.symbols, h.ops, h.size, h.bare, h.definition⟩

private theorem sameParts_setMasks (written : Bool) (g : Graph)
    (given : List (VarnodeId × UInt64)) :
    g.SameParts (Description.setMasks written g given) := by
  rw [Description.setMasks]
  refine List.foldlRecOn (motive := fun x : Graph => g.SameParts x) given _ (.refl g)
    fun x hx entry _ => ?_
  dsimp only
  split
  · exact hx.trans (x.sameParts_modifyVarnode _ (fun _ => rfl) fun _ => rfl)
  · exact hx

private theorem sameParts_computeMasks (g : Graph) : g.SameParts g.computeMasks := by
  refine ⟨rfl, rfl, rfl, by simp [computeMasks], fun v => ?_, fun v => ?_⟩
  · rcases g.varnode_computeMasks v with h | h
    · rw [h]
    · rw [h]
      rfl
  · rcases g.varnode_computeMasks v with h | h <;> rw [h]

/-- Installing masks adds no part. -/
theorem sameParts_installMasks (d : Description) (g : Graph) : g.SameParts (d.installMasks g) :=
  ((sameParts_setMasks false g _).trans (sameParts_computeMasks _)).trans
    (sameParts_setMasks true _ _)

end Graph

namespace NamedRoutine.MadeOf

variable {n : NamedRoutine} {spaces : List SpaceDecl} {values : List VarnodeDecl}
  {ops : List OpDecl} {r : Routine}

/-- What a function is made of can be read off its parts. -/
theorem of_sameParts (h : n.MadeOf spaces values ops) (hg : n.routine.graph.SameParts r.graph) :
    MadeOf ⟨r, n.names⟩ spaces values ops where
  spaces := by rw [hg.spaces]; exact h.spaces
  size := hg.size.trans h.size
  value v decl hv := by rw [hg.bare, hg.spaces]; exact h.value v decl hv
  count := by rw [hg.ops]; exact h.count
  op o decl ho := by rw [hg.op]; exact h.op o decl ho
  named := h.named

/-- A name is found exactly if a value with it is declared. -/
theorem isSome_value? (h : n.MadeOf spaces values ops) (name : String) :
    (n.value? name).isSome = true ↔ ∃ v ∈ values, v.name = name := by
  rw [Option.isSome_iff_exists]
  constructor
  · rintro ⟨v, hv⟩
    obtain ⟨decl, hdecl, hname⟩ := (h.named name v).mp hv
    exact ⟨decl, List.mem_of_getElem? hdecl, hname⟩
  · rintro ⟨decl, hdecl, hname⟩
    obtain ⟨v, hv⟩ := List.mem_iff_getElem?.mp hdecl
    exact ⟨v, (h.named name v).mpr ⟨decl, hv, hname⟩⟩

/-- A value has one name. -/
theorem unique_name (h : n.MadeOf spaces values ops) {a b : String} {v : VarnodeId}
    (ha : n.value? a = some v) (hb : n.value? b = some v) : a = b := by
  obtain ⟨decl, hdecl, rfl⟩ := (h.named a v).mp ha
  obtain ⟨decl', hdecl', rfl⟩ := (h.named b v).mp hb
  cases hdecl.symm.trans hdecl'
  rfl

/-- There is only one declaration of a value. -/
theorem exists_named_iff (h : n.MadeOf spaces values ops) {v : VarnodeId} {decl : VarnodeDecl}
    (hdecl : values[v]? = some decl) (P : VarnodeDecl → Prop) :
    (∃ other ∈ values, other.name = decl.name ∧ P other) ↔ P decl := by
  refine ⟨?_, fun hP => ⟨decl, List.mem_of_getElem? hdecl, rfl, hP⟩⟩
  rintro ⟨other, hother, hname, hP⟩
  obtain ⟨w, hw⟩ := List.mem_iff_getElem?.mp hother
  have hv := (h.named decl.name v).mpr ⟨decl, hdecl, rfl⟩
  cases hv.symm.trans ((h.named decl.name w).mpr ⟨other, hw, hname⟩)
  cases hdecl.symm.trans hw
  exact hP

/-- A named value is in the graph. -/
theorem lt_size (h : n.MadeOf spaces values ops) {name : String} {v : VarnodeId}
    (hv : n.value? name = some v) : v < n.routine.graph.varnodes.size := by
  obtain ⟨decl, hdecl, -⟩ := (h.named name v).mp hv
  rw [h.size]
  exact (List.getElem?_eq_some_iff.mp hdecl).1

end NamedRoutine.MadeOf

namespace Description

open TypeTable (Agrees)
open TypeExpr (Names)

/-- A function to which some symbols, values and ops of a description were added. -/
structure Holds (d : Description) (env : Declarations) (names : Names) (symbols : List SymbolDecl)
    (values : List VarnodeDecl) (ops : List OpDecl) (n : NamedRoutine) : Prop
    extends n.MadeOf d.spaces values ops where
  /-- Its types are the declared ones. -/
  agrees : Agrees env names d.pointerSize.toNat n.routine.state.types
  /-- Its symbols have the names of the declared ones. -/
  symbols : n.routine.graph.symbols.toList.map (·.name) = symbols.map (·.name)
  /-- A value is written exactly if it is the result of an op. -/
  written : ∀ v, (n.routine.graph.varnode v).isWritten = true ↔
    ∃ o, (n.routine.graph.op o).output = some v

variable {d : Description} {env : Declarations} {names : Names} {symbols : List SymbolDecl}
  {values : List VarnodeDecl} {ops : List OpDecl} {n : NamedRoutine} {r : Routine}

/-- What a function holds of a description can be read off its parts and its types. -/
theorem Holds.of_sameParts (h : Holds d env names symbols values ops n)
    (hg : n.routine.graph.SameParts r.graph)
    (ha : Agrees env names d.pointerSize.toNat r.state.types) :
    Holds d env names symbols values ops ⟨r, n.names⟩ where
  toMadeOf := h.toMadeOf.of_sameParts hg
  agrees := ha
  symbols := by rw [hg.symbols]; exact h.symbols
  written v := by
    simp only [Varnode.isWritten, hg.definition, hg.op]
    exact h.written v

/-- A value is found exactly if it is declared. -/
theorem exact_findVarnode {spaces : List SpaceDecl} (h : n.MadeOf spaces values ops)
    (name : String) :
    Exact (∃ v ∈ values, v.name = name) (fun v => n.value? name = some v) (findVarnode n name) := by
  rw [findVarnode]
  cases hfind : n.value? name with
  | some v => exact ⟨(h.isSome_value? name).mp (by rw [hfind]; rfl), rfl⟩
  | none =>
    intro hname
    have hsome := (h.isSome_value? name).mpr hname
    rw [hfind] at hsome
    cases hsome

/-- A symbol is added exactly if its type has a meaning. -/
theorem exact_addSymbol (h : Holds d env names symbols values ops n) (s : SymbolDecl) :
    Exact (d.HasMeaning env s.type)
      (fun r => Holds d env names (symbols ++ [s]) values ops ⟨r, n.names⟩)
      (addSymbol names n.routine s) := by
  refine (exact_denoteIn h.agrees s.type).map fun x hx => ?_
  obtain ⟨id, r⟩ := x
  obtain ⟨hagrees, hgraph⟩ := hx
  have hsame : n.routine.graph.SameParts r.graph := by rw [hgraph]; exact .refl _
  have htyped := h.of_sameParts hsame hagrees
  refine ⟨⟨htyped.spaces, htyped.size, htyped.value, htyped.count, htyped.op, htyped.named⟩,
    hagrees, ?_, htyped.written⟩
  rw [List.map_append, ← htyped.symbols]
  simp [Routine.modifyGraph, Graph.addSymbol]

end Description

end TypeRecovery
