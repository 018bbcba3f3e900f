import TypeRecovery.Proofs.Description.Valid
import TypeRecovery.Proofs.Graph.Construction

/-!
# Acceptance of descriptions

The parts of a description are checked one after the other while the function is built from it. Each
symbol, value and op is added exactly if it is valid and does not repeat one before it. So a
function is built exactly from the valid descriptions, and its values and ops are those of the
description, in their order.
-/

namespace TypeRecovery

namespace Description

open TypeTable (Agrees)
open TypeExpr (Names)

variable {d : Description} {env : Declarations} {names : Names} {symbols : List SymbolDecl}
  {values : List VarnodeDecl} {ops : List OpDecl} {n : NamedRoutine} {r : Routine}

/-! ## Values -/

/-- A graph with one more value. -/
structure Gains (g : Graph) (node : Varnode) (g' : Graph) : Prop where
  /-- The spaces are the same. -/
  spaces : g'.spaces = g.spaces
  /-- The symbols are the same. -/
  symbols : g'.symbols = g.symbols
  /-- The ops are the same. -/
  ops : g'.ops = g.ops
  /-- The value comes after the others. -/
  varnodes : g'.varnodes = g.varnodes.push node

/-- A new value may still be changed. -/
theorem Gains.modifyVarnode {g g' : Graph} {node : Varnode} (h : Gains g node g')
    (f : Varnode → Varnode) : Gains g (f node) (g'.modifyVarnode g.varnodes.size f) where
  spaces := h.spaces
  symbols := h.symbols
  ops := h.ops
  varnodes := by
    rw [Graph.modifyVarnode, h.varnodes]
    refine Array.ext (by simp) fun i hi _ => ?_
    rw [Array.getElem_modify, Array.getElem_push, Array.getElem_push]
    grind

/-- The values before a new one stay as they are. -/
theorem Gains.varnode {g g' : Graph} {node : Varnode} (h : Gains g node g') (v : VarnodeId) :
    g'.varnode v = if v = g.varnodes.size then node else g.varnode v := by
  rw [Graph.varnode, h.varnodes, Array.getElem?_push]
  split
  · rfl
  · rfl

/-- A value is placed before its flags are set, all but the one of inputs. -/
theorem exists_placed {space : SpaceId} (r : Routine) (v : VarnodeDecl)
    (hspace : r.graph.spaces.find? v.space = some space)
    (hconstant : space = SpaceTable.constantSpace ↔ v.space = "const") :
    ∃ node, placeVarnode r v space = r.addVarnode node ∧
      node.bare = { v.node r.graph.spaces with
        input := (v.input || v.spaceBase) && v.space ≠ "const"
        addrTied := false, annotation := false, spaceBase := false } ∧
      node.definition = none := by
  rw [placeVarnode]
  split
  · rename_i hid
    have hname := hconstant.mp hid
    rw [hname] at hspace
    refine ⟨_, rfl, ?_, rfl⟩
    simp [Varnode.bare, VarnodeDecl.node, hname, hspace, hid]
  · rename_i hid
    have hname : v.space ≠ "const" := fun hname => hid (hconstant.mpr hname)
    split
    · rename_i hinput
      refine ⟨_, rfl, ?_, rfl⟩
      simp [Varnode.bare, VarnodeDecl.node, hname, hspace, hinput]
    · rename_i hinput
      refine ⟨_, rfl, ?_, rfl⟩
      simp [Varnode.bare, VarnodeDecl.node, hname, hspace, hinput]

/-- With its flags the value is the declared one. -/
theorem exists_gains {space : SpaceId} (r : Routine) (v : VarnodeDecl)
    (hspace : r.graph.spaces.find? v.space = some space)
    (hconstant : space = SpaceTable.constantSpace ↔ v.space = "const") :
    ∃ node, Gains r.graph node
        (flagVarnode (placeVarnode r v space).graph r.graph.varnodes.size v) ∧
      node.bare = v.node r.graph.spaces ∧ node.definition = none := by
  obtain ⟨node, hplace, hnode, hdefinition⟩ := exists_placed r v hspace hconstant
  have hgains : Gains r.graph node (r.addVarnode node).graph := ⟨rfl, rfl, rfl, rfl⟩
  simp only [hplace, flagVarnode]
  split
  · rename_i hbase
    have hmodified := hgains.modifyVarnode fun node =>
      { node with spaceBase := true, input := true }
    have hmarked : Gains r.graph { node with spaceBase := true, input := true }
        ((r.addVarnode node).graph.setSpaceBase r.graph.varnodes.size) :=
      ⟨hmodified.spaces, hmodified.symbols, hmodified.ops, hmodified.varnodes⟩
    refine ⟨_, hmarked.modifyVarnode _, ?_, hdefinition⟩
    change { node.bare with
      spaceBase := true, input := true, annotation := node.bare.annotation || v.annotation,
      addrTied := node.bare.addrTied || v.addrTied } = _
    simp [hnode, VarnodeDecl.node, hbase]
  · rename_i hbase
    refine ⟨_, hgains.modifyVarnode _, ?_, hdefinition⟩
    change { node.bare with
      annotation := node.bare.annotation || v.annotation,
      addrTied := node.bare.addrTied || v.addrTied } = _
    simp [hnode, VarnodeDecl.node, hbase]

private theorem getElem?_concat_iff {α : Type} {l : List α} {a b : α} {i : Nat} :
    (l ++ [a])[i]? = some b ↔ l[i]? = some b ∨ i = l.length ∧ a = b := by
  rw [List.getElem?_append, List.getElem?_singleton]
  grind

private theorem value?_concat_iff {r : Routine} {name added : String} {v new : VarnodeId} :
    NamedRoutine.value? ⟨r, n.names ++ [(added, new)]⟩ name = some v ↔
      n.value? name = some v ∨ n.value? name = none ∧ name = added ∧ new = v := by
  simp only [NamedRoutine.value?, List.lookup_append, Option.or_eq_some_iff]
  by_cases h : name = added
  · simp [h]
  · simp [h, List.lookup_cons, beq_false_of_ne h]

/-- A new name means the new value, and the others mean what they meant. -/
theorem Holds.named_concat_iff {v : VarnodeDecl} (h : Holds d env names symbols values ops n)
    (hname : ¬∃ w ∈ values, w.name = v.name) {name : String} {id : VarnodeId} :
    NamedRoutine.value? ⟨r, n.names ++ [(v.name, n.routine.graph.varnodes.size)]⟩ name = some id ↔
      ∃ decl, (values ++ [v])[id]? = some decl ∧ decl.name = name := by
  rw [value?_concat_iff, h.named]
  constructor
  · rintro (⟨decl, hdecl, hdeclName⟩ | ⟨-, rfl, rfl⟩)
    · exact ⟨decl, getElem?_concat_iff.mpr (.inl hdecl), hdeclName⟩
    · exact ⟨v, getElem?_concat_iff.mpr (.inr ⟨h.size, rfl⟩), rfl⟩
  · rintro ⟨decl, hdecl, rfl⟩
    rcases getElem?_concat_iff.mp hdecl with hold | ⟨rfl, rfl⟩
    · exact .inl ⟨decl, hold, rfl⟩
    · rw [← h.isSome_value?, Option.not_isSome_iff_eq_none] at hname
      exact .inr ⟨hname, rfl, h.size⟩

/-- A function that holds a part of a description holds a value more when it is added. -/
theorem Holds.addVarnode {v : VarnodeDecl} {node : Varnode}
    (h : Holds d env names symbols values [] n) (hname : ¬∃ w ∈ values, w.name = v.name)
    (hgains : Gains n.routine.graph node r.graph)
    (hnode : node.bare = v.node n.routine.graph.spaces) (hdefinition : node.definition = none)
    (hagrees : Agrees env names d.pointerSize.toNat r.state.types) :
    Holds d env names symbols (values ++ [v]) []
      ⟨r, n.names ++ [(v.name, n.routine.graph.varnodes.size)]⟩ := by
  have hcount : n.routine.graph.ops.size = 0 := h.count
  have hcount' : r.graph.ops.size = 0 := by rw [hgains.ops, hcount]
  refine ⟨⟨?_, ?_, fun id decl hdecl => ?_, hcount', fun o decl ho => by simp at ho,
    fun name id => ?_⟩, hagrees, ?_, fun id => ⟨fun hwritten => ?_, ?_⟩⟩
  · rw [hgains.spaces]
    exact h.spaces
  · rw [hgains.varnodes, Array.size_push, h.size, List.length_append, List.length_singleton]
  · rw [hgains.varnode, hgains.spaces, h.size]
    rcases getElem?_concat_iff.mp hdecl with hold | ⟨rfl, rfl⟩
    · rw [if_neg (List.getElem?_eq_some_iff.mp hold).1.ne]
      exact h.value id decl hold
    · rw [if_pos rfl]
      exact hnode
  · exact h.named_concat_iff hname
  · rw [hgains.symbols]
    exact h.symbols
  · rw [hgains.varnode] at hwritten
    split at hwritten
    · rw [Varnode.isWritten, hdefinition] at hwritten
      cases hwritten
    · obtain ⟨o, ho⟩ := (h.written id).mp hwritten
      exact absurd (Graph.lt_size_of_output ho) (by omega)
  · rintro ⟨o, ho⟩
    exact absurd (hcount' ▸ Graph.lt_size_of_output ho) (Nat.not_lt_zero o)

/-- Giving a value its type succeeds exactly if the text has a meaning. -/
theorem exact_typeVarnode (hagrees : Agrees env names d.pointerSize.toNat r.state.types)
    (id : VarnodeId) (v : VarnodeDecl) :
    Exact (∀ text ∈ v.type, d.HasMeaning env text)
      (fun r' => Agrees env names d.pointerSize.toNat r'.state.types ∧ r'.graph = r.graph)
      (typeVarnode names r id v) := by
  rw [typeVarnode]
  cases v.type with
  | none =>
    refine Exact.congr (Q := True) ?_ (by simp)
    dsimp only
    split
    · exact ⟨trivial, hagrees, rfl⟩
    · exact ⟨trivial, hagrees, rfl⟩
  | some text =>
    refine Exact.congr (Q := d.HasMeaning env text ∧ True) ?_ (by simp)
    refine (exact_denoteIn hagrees text).bind fun x hx => ?_
    dsimp only
    split
    · exact exact_pure hx
    · refine exact_pure ⟨?_, hx.2⟩
      change Agrees _ _ _ (x.2.state.commit id x.1).types
      rw [TypeState.types_commit]
      exact hx.1

/-- Binding a value succeeds exactly if the symbol is declared. -/
theorem exact_bindVarnode (hsymbols : r.graph.symbols.toList.map (·.name) = symbols.map (·.name))
    (id : VarnodeId) (v : VarnodeDecl) (space : SpaceId) :
    Exact (∀ part ∈ v.symbol, ∃ s ∈ symbols, s.name = part.name)
      (fun r' => r'.state = r.state ∧ r.graph.SameParts r'.graph) (bindVarnode r id v space) := by
  have hfind (name : String) : (r.graph.findSymbol? name).isSome = true ↔
      ∃ s ∈ symbols, s.name = name := by
    rw [Graph.findSymbol?, isSome_findIdx?_iff, hsymbols, List.mem_map]
  rw [bindVarnode]
  cases v.symbol with
  | none => exact (exact_pure ⟨rfl, .refl _⟩).congr (by simp)
  | some part =>
    refine Exact.congr (Q := ∃ s ∈ symbols, s.name = part.name) ?_ (by simp)
    rw [← hfind]
    dsimp only
    cases r.graph.findSymbol? part.name with
    | none => exact Bool.false_ne_true
    | some symbol => exact ⟨rfl, rfl, r.graph.sameParts_bindSymbol id _⟩

/-- A new value has an unknown type, which is never a declared one. -/
theorem agrees_placeVarnode (hagrees : Agrees env names d.pointerSize.toNat r.state.types)
    (v : VarnodeDecl) (space : SpaceId) :
    Agrees env names d.pointerSize.toNat (placeVarnode r v space).state.types := by
  obtain ⟨node, hplace, -⟩ := Grounded.exists_placeVarnode r v space
  rw [hplace]
  exact hagrees.intern (.atom node.size .unknown) fun name hkey => nomatch hkey

/-- A value is added exactly if its name is new and it is valid. -/
theorem exact_addVarnode (h : Holds d env names d.symbols values [] n) (v : VarnodeDecl) :
    Exact (v.name ∉ values.map (·.name) ∧ d.ValidVarnode env v)
      (Holds d env names d.symbols (values ++ [v]) []) (addVarnode names n v) := by
  have hsome := h.isSome_value? v.name
  rw [addVarnode]
  refine Exact.congr (Q := ¬(n.value? v.name).isSome = true ∧ ¬v.size = 0 ∧ d.HasSpace v.space ∧
    (∀ text ∈ v.type, d.HasMeaning env text) ∧
    ∀ part ∈ v.symbol, ∃ s ∈ d.symbols, s.name = part.name) ?_ ?_
  · refine exact_ite fun hname => exact_ite fun hsize => ?_
    refine (exact_findSpace h.spaces v.space).bind fun space hspace => ?_
    obtain ⟨node, hgains, hnode, hdefinition⟩ :=
      exists_gains n.routine v hspace (h.spaces.eq_constantSpace_iff hspace)
    have hplaced := agrees_placeVarnode h.agrees v space
    generalize placeVarnode n.routine v space = placed at hgains hplaced ⊢
    refine (exact_typeVarnode (r := placed.modifyGraph fun g => flagVarnode g _ v)
      hplaced _ v).bind fun typed htyped => ?_
    obtain ⟨htypes, hgraph⟩ := htyped
    have hsymbols : typed.graph.symbols.toList.map (·.name) = d.symbols.map (·.name) := by
      rw [hgraph]
      exact (congrArg (·.toList.map (·.name)) hgains.symbols).trans h.symbols
    refine (exact_bindVarnode hsymbols _ v space).map fun bound hbound => ?_
    have hadded := h.addVarnode (r := typed) (fun hw => hname (hsome.mpr hw)) (hgraph ▸ hgains)
      hnode hdefinition htypes
    exact hadded.of_sameParts hbound.2 (hbound.1 ▸ htypes)
  · rw [hsome, ← List.mem_map]
    constructor
    · rintro ⟨hname, hsize, hspace, htype, hsymbol⟩
      exact ⟨hname, hsize, hspace, htype, hsymbol⟩
    · rintro ⟨hname, hv⟩
      exact ⟨hname, hv.size, hv.space, hv.type, hv.symbol⟩

/-! ## Ops -/

private theorem op_of_linked {g g' : Graph} {op : Op} (h : g.Linked op g') (o : OpId) :
    g'.op o = if o = g.ops.size then op else g.op o := by
  rw [Graph.op, h.ops, Array.getElem?_push]
  split <;> rfl

/-- If the values written are the results of the ops, they are so with one more op. -/
theorem isWritten_of_linked {g g' : Graph} {op : Op} (h : g.Linked op g')
    (hg : ∀ v, (g.varnode v).isWritten = true ↔ ∃ o, (g.op o).output = some v) (v : VarnodeId) :
    (g'.varnode v).isWritten = true ↔ ∃ o, (g'.op o).output = some v := by
  rw [Varnode.isWritten, h.definition]
  by_cases hout : op.output = some v
  · rw [if_pos hout]
    exact ⟨fun _ => ⟨_, by rw [op_of_linked h, if_pos rfl, hout]⟩, fun _ => rfl⟩
  · rw [if_neg hout]
    refine (hg v).trans (exists_congr fun o => ?_)
    rw [op_of_linked h]
    split
    · rename_i ho
      rw [ho]
      exact ⟨fun hold => absurd (Graph.lt_size_of_output hold) (Nat.lt_irrefl _),
        fun hnew => absurd hnew hout⟩
    · exact Iff.rfl

/-- A function that holds a part of a description holds an op more when it is linked. -/
theorem Holds.addOp {decl : OpDecl} {op : Op} (h : Holds d env names symbols values ops n)
    (haccepts : n.routine.graph.Accepts op) (hop : decl.Describes n.value? op) :
    Holds d env names symbols values (ops ++ [decl])
      ⟨{ n.routine with graph := n.routine.graph.linkOp op }, n.names⟩ := by
  have hlinked := haccepts.linked
  have hspaces := (n.routine.graph.samePlaces_linkOp op).spaces
  refine ⟨⟨?_, hlinked.size.trans h.size, fun v decl hv => ?_, ?_, fun o decl ho => ?_, h.named⟩,
    h.agrees, ?_, isWritten_of_linked hlinked h.written⟩
  · rw [hspaces]
    exact h.spaces
  · rw [hspaces, ← h.value v decl hv]
    exact Graph.varnode_linkOp_frame Varnode.bare (fun _ _ => rfl) (fun _ _ => rfl) _ op v
  · rw [hlinked.ops, Array.size_push, h.count, List.length_append, List.length_singleton]
  · rw [op_of_linked hlinked, h.count]
    rcases getElem?_concat_iff.mp ho with hold | ⟨rfl, rfl⟩
    · rw [if_neg (List.getElem?_eq_some_iff.mp hold).1.ne]
      exact h.op o decl hold
    · rw [if_pos rfl]
      exact hop
  · rw [hlinked.mentions.symbols]
    exact h.symbols

/-- The values that are written are the results of the ops so far. -/
theorem Holds.isWritten_iff (h : Holds d env names symbols values ops n) {name : String}
    {v : VarnodeId} (hv : n.value? name = some v) :
    (n.routine.graph.varnode v).isWritten = true ↔ name ∈ ops.filterMap (·.output) := by
  rw [h.written, List.mem_filterMap]
  constructor
  · rintro ⟨o, ho⟩
    have hlt : o < ops.length := h.count ▸ Graph.lt_size_of_output ho
    have hdecl := h.op o _ (List.getElem?_eq_getElem hlt)
    refine ⟨ops[o], List.getElem_mem hlt, ?_⟩
    have houtput := hdecl.output
    rw [ho] at houtput
    generalize ops[o].output = output at houtput
    cases houtput with
    | some hname => exact congrArg some (h.unique_name hname hv)
  · rintro ⟨decl, hdecl, hname⟩
    obtain ⟨o, ho⟩ := List.mem_iff_getElem?.mp hdecl
    refine ⟨o, ?_⟩
    have houtput := (h.op o decl ho).output
    rw [hname] at houtput
    generalize (n.routine.graph.op o).output = output at houtput ⊢
    cases houtput with
    | some hv' => exact hv'.symm.trans hv

/-- Whether an op may write a value is told from its declaration and from the ops before. -/
theorem Holds.isFree_iff (h : Holds d env names symbols values ops n) {name : String}
    {v : VarnodeId} (hv : n.value? name = some v) :
    n.routine.graph.isFree v = true ↔ name ∉ ops.filterMap (·.output) ∧
      ∃ decl ∈ values, decl.name = name ∧ decl.Writable := by
  obtain ⟨decl, hdecl, rfl⟩ := (h.named name v).mp hv
  rw [← h.isWritten_iff hv, h.exists_named_iff hdecl]
  have hvalue := h.value v decl hdecl
  have hconstant : (n.routine.graph.varnode v).constant = decide (decl.space = "const") :=
    congrArg Varnode.constant hvalue
  have hinput : (n.routine.graph.varnode v).input =
      (decl.spaceBase || decl.input && decl.space ≠ "const") := congrArg Varnode.input hvalue
  rw [Graph.isFree, hconstant, hinput, VarnodeDecl.Writable]
  by_cases hspace : decl.space = "const"
  · simp [hspace]
  · simp [hspace, and_comm]

/-- An op is acceptable exactly if its result is declared, can be written and is not written yet. -/
theorem Holds.accepts_iff {decl : OpDecl} {op : Op} (h : Holds d env names symbols values ops n)
    (hop : decl.Describes n.value? op) :
    n.routine.graph.Accepts op ↔
      ∀ name ∈ decl.output, name ∉ ops.filterMap (·.output) ∧
        ∃ v ∈ values, v.name = name ∧ v.Writable := by
  have hinputs : ∀ v ∈ op.inputs, v < n.routine.graph.varnodes.size := by
    intro v hv
    obtain ⟨i, hi, rfl⟩ := List.getElem_of_mem hv
    exact h.lt_size (hop.inputs.get (hop.inputs.length_eq ▸ hi) hi)
  have hfree : n.routine.graph.Accepts op ↔
      ∀ v ∈ op.output, v < n.routine.graph.varnodes.size ∧ n.routine.graph.isFree v = true := by
    simp only [Graph.isFree_iff]
    exact ⟨fun hok v hv => ⟨hok.output v hv, hok.unwritten v hv, hok.constant v hv, hok.input v hv⟩,
      fun hok => ⟨hinputs, fun v hv => (hok v hv).1, fun v hv => (hok v hv).2.1,
        fun v hv => (hok v hv).2.2.1, fun v hv => (hok v hv).2.2.2⟩⟩
  have houtput := hop.output
  rw [hfree]
  generalize op.output = output at houtput ⊢
  generalize decl.output = result at houtput ⊢
  cases houtput with
  | none => simp
  | some hv => simp only [Option.mem_some, forall_eq', h.lt_size hv, h.isFree_iff hv, true_and]

private theorem exact_newOp (h : Holds d env names symbols values ops n) {decl : OpDecl} {op : Op}
    (hop : decl.Describes n.value? op) :
    Exact (∀ name ∈ decl.output, name ∉ ops.filterMap (·.output) ∧
        ∃ v ∈ values, v.name = name ∧ v.Writable)
      (fun r => Holds d env names symbols values (ops ++ [decl]) ⟨r, n.names⟩)
      (n.routine.newOp op) := by
  rw [← h.accepts_iff hop]
  by_cases haccepts : n.routine.graph.Accepts op
  · rw [Routine.newOp, Routine.tryOp_of_accepts haccepts]
    exact ⟨haccepts, h.addOp haccepts hop⟩
  · obtain ⟨e, he⟩ := Routine.tryOp_of_not_accepts haccepts
    rw [Routine.newOp, he]
    exact haccepts

/-- An op is added exactly if it is valid and its result is not that of an op before it. -/
theorem exact_addOp (h : Holds d env names symbols d.varnodes ops n) (code : SpaceId)
    (decl : OpDecl) :
    Exact (d.ValidOp decl ∧ ∀ name ∈ decl.output, name ∉ ops.filterMap (·.output))
      (Holds d env names symbols d.varnodes (ops ++ [decl])) (addOp code n decl) := by
  rw [Description.addOp]
  refine Exact.congr (Q := (∀ name ∈ decl.inputs, ∃ v ∈ d.varnodes, v.name = name) ∧
    (∀ name ∈ decl.output, ∃ v ∈ d.varnodes, v.name = name) ∧
    ¬decl.inputs.length < decl.opcode.minInputs ∧
    ∀ name ∈ decl.output, name ∉ ops.filterMap (·.output) ∧
      ∃ v ∈ d.varnodes, v.name = name ∧ v.Writable) ?_ ?_
  · refine (exact_mapM (exact_findVarnode h.toMadeOf) _).bind fun inputs hinputs => ?_
    refine (exact_mapM_option (exact_findVarnode h.toMadeOf) _).bind fun output houtput => ?_
    rw [hinputs.length_eq]
    refine exact_ite fun _ => ?_
    exact (exact_newOp h ⟨rfl, rfl, hinputs, houtput, rfl, rfl, rfl, rfl⟩).map fun _ hr => hr
  · constructor
    · rintro ⟨hoperands, -, harity, hresult⟩
      exact ⟨⟨hoperands, Nat.le_of_not_lt harity, fun name hname => (hresult name hname).2⟩,
        fun name hname => (hresult name hname).1⟩
    · rintro ⟨hvalid, hnew⟩
      refine ⟨hvalid.operands, fun name hname => ?_, Nat.not_lt.mpr hvalid.arity,
        fun name hname => ⟨hnew name hname, hvalid.result name hname⟩⟩
      obtain ⟨v, hv, hvname, -⟩ := hvalid.result name hname
      exact ⟨v, hv, hvname⟩

/-! ## What is noted beside the values and the ops -/

/-- Adding a recommendation succeeds exactly if its space is declared and its type has a meaning. -/
theorem exact_addRecommendation (h : Holds d env names symbols values ops n)
    (x : RecommendationDecl) :
    Exact (d.HasSpace x.space ∧ d.HasMeaning env x.type)
      (fun r => Holds d env names symbols values ops ⟨r, n.names⟩)
      (addRecommendation names n.routine x) := by
  refine (exact_findSpace h.spaces x.space).bind fun space _ => ?_
  refine (exact_denoteIn h.agrees x.type).map fun typed htyped => ?_
  refine h.of_sameParts ?_ htyped.1
  change n.routine.graph.SameParts (typed.2.graph.addRecommendation _)
  rw [htyped.2]
  exact .of_parts rfl rfl rfl rfl

private theorem exact_addHeritage (h : Holds d env names symbols values ops n)
    (entry : String × UInt32) :
    Exact (d.HasSpace entry.1) (fun r => Holds d env names symbols values ops ⟨r, n.names⟩)
      (addHeritage n.routine entry) :=
  (exact_findSpace h.spaces entry.1).map fun _ _ =>
    h.of_sameParts (.of_parts rfl rfl rfl rfl) h.agrees

private theorem exact_setPrototype (h : Holds d env names symbols values ops n)
    (x : PrototypeDecl) :
    Exact (∀ text ∈ x.outputType, d.HasMeaning env text)
      (fun r => Holds d env names symbols values ops ⟨r, n.names⟩)
      (setPrototype names n.routine x) := by
  rw [setPrototype]
  cases x.outputType with
  | none =>
    refine Exact.congr (Q := True) ?_ (by simp)
    exact ⟨trivial, h.of_sameParts (.of_parts rfl rfl rfl rfl) h.agrees⟩
  | some text =>
    refine Exact.congr (Q := d.HasMeaning env text) ?_ (by simp)
    refine (exact_denoteIn h.agrees text).map fun typed htyped => ?_
    refine h.of_sameParts ?_ htyped.1
    change n.routine.graph.SameParts { typed.2.graph with prototype := _ }
    rw [htyped.2]
    exact .of_parts rfl rfl rfl rfl

/-! ## The whole description -/

private theorem holds_start {spaces : SpaceTable}
    (hspaces : SpacesAre spaces (d.spaces.map (·.name))) {types : TypeTable}
    (hagrees : Agrees env names d.pointerSize.toNat types) (stack : SpaceId) (started : Bool) :
    Holds d env names [] [] []
      ⟨{ Routine.empty d.name spaces stack types with started }, []⟩ where
  spaces := hspaces
  size := rfl
  value v decl hv := by simp at hv
  count := rfl
  op o decl ho := by simp at ho
  named name v := by simp [NamedRoutine.value?]
  agrees := hagrees
  symbols := rfl
  written v := by
    rw [Graph.varnode_of_le (Nat.zero_le v)]
    refine ⟨fun hwritten => (nomatch hwritten), ?_⟩
    rintro ⟨o, ho⟩
    exact absurd (Graph.lt_size_of_output ho) (Nat.not_lt_zero o)

/-- Adding the symbols succeeds exactly if their types have meanings. -/
theorem exact_addSymbols {r : Routine} (h : Holds d env names [] [] [] ⟨r, []⟩) :
    Exact (∀ s ∈ d.symbols, d.HasMeaning env s.type)
      (fun r => Holds d env names d.symbols [] [] ⟨r, []⟩)
      (d.symbols.foldlM (addSymbol names) r) :=
  (exact_foldlM (P := fun done r => Holds d env names done [] [] ⟨r, []⟩)
    (fun _ s _ hr => exact_addSymbol hr s) h).congr eachAfter_forall

/-- Adding the values succeeds exactly if they are valid and have different names. -/
theorem exact_addVarnodes (h : Holds d env names d.symbols [] [] n) :
    Exact ((d.varnodes.map (·.name)).Nodup ∧ ∀ v ∈ d.varnodes, d.ValidVarnode env v)
      (Holds d env names d.symbols d.varnodes []) (d.varnodes.foldlM (addVarnode names) n) := by
  refine (exact_foldlM (P := fun done => Holds d env names d.symbols done [])
    (fun _ v _ hn => exact_addVarnode hn v) h).congr ?_
  rw [eachAfter_and, eachAfter_notMem_map, eachAfter_forall]

/-- Adding the ops succeeds exactly if they are valid and have different results. -/
theorem exact_addOps (h : Holds d env names d.symbols d.varnodes [] n) (code : SpaceId) :
    Exact ((∀ op ∈ d.ops, d.ValidOp op) ∧ (d.ops.filterMap (·.output)).Nodup)
      (Holds d env names d.symbols d.varnodes d.ops) (d.ops.foldlM (addOp code) n) := by
  refine (exact_foldlM (P := fun done => Holds d env names d.symbols d.varnodes done)
    (fun _ op _ hn => exact_addOp hn code op) h).congr ?_
  rw [eachAfter_and, eachAfter_forall, eachAfter_notMem]
  simp

private theorem exact_addRecommendations (h : Holds d env names symbols values ops n) :
    Exact (∀ x ∈ d.recommendations, d.HasSpace x.space ∧ d.HasMeaning env x.type)
      (fun r => Holds d env names symbols values ops ⟨r, n.names⟩)
      (d.recommendations.foldlM (addRecommendation names) n.routine) :=
  exact_foldlM_forall (fun x _ hr => exact_addRecommendation hr x) h

private theorem exact_addHeritages (h : Holds d env names symbols values ops n) :
    Exact (∀ entry ∈ d.heritage, d.HasSpace entry.1)
      (fun r => Holds d env names symbols values ops ⟨r, n.names⟩)
      (d.heritage.foldlM addHeritage n.routine) :=
  exact_foldlM_forall (fun entry _ hr => exact_addHeritage hr entry) h

/-- The types are declared exactly if their declarations are in order, and what follows depends on
what they declare. -/
theorem exact_addTypes {α : Type} {Q : Declarations → Prop} {R : α → Prop} {start : Types}
    {rest : Types → Except GraphError α}
    (hstart : Agrees [] start.names d.pointerSize.toNat start.table)
    (hrest : ∀ env types, Agrees env types.names d.pointerSize.toNat types.table →
      Exact (Q env) R (rest types)) :
    Exact (∃ env, Declares d.pointerSize.toNat [] d.types env ∧ Q env) R
      (d.types.foldlM addType start >>= rest) := by
  cases hadd : d.types.foldlM addType start with
  | error e =>
    rintro ⟨env, htypes, -⟩
    obtain ⟨types, htypes', -⟩ := addTypes_of_declares hstart htypes
    rw [hadd] at htypes'
    cases htypes'
  | ok types =>
    obtain ⟨env, htypes, hagrees⟩ := declares_of_addTypes hstart hadd
    refine (hrest env types hagrees).congr ⟨fun hQ => ⟨env, htypes, hQ⟩, ?_⟩
    -- the same run agrees with any declarations that are in order
    rintro ⟨env', htypes', hQ⟩
    obtain ⟨types', hadd', hagrees'⟩ := addTypes_of_declares hstart htypes'
    cases hadd.symm.trans hadd'
    exact (hrest env types hagrees).ok_iff.mp ((hrest env' types hagrees').ok_iff.mpr hQ)

/-- The steps before the masks succeed exactly if the description is valid. -/
theorem exact_unmasked (d : Description) :
    Exact d.Valid (fun n => n.MadeOf d.spaces d.varnodes d.ops) d.unmasked := by
  refine Exact.congr (Q := d.ValidSpaces ∧ d.HasSpace d.stackSpace ∧
    ∃ env, Declares d.pointerSize.toNat [] d.types env ∧
      (∀ s ∈ d.symbols, d.HasMeaning env s.type) ∧
      ((d.varnodes.map (·.name)).Nodup ∧ ∀ v ∈ d.varnodes, d.ValidVarnode env v) ∧
      ((∀ op ∈ d.ops, d.ValidOp op) ∧ (d.ops.filterMap (·.output)).Nodup) ∧
      (∀ x ∈ d.recommendations, d.HasSpace x.space ∧ d.HasMeaning env x.type) ∧
      (∀ entry ∈ d.heritage, d.HasSpace entry.1) ∧
      ∀ text ∈ d.prototype.outputType, d.HasMeaning env text) ?_ ?_
  · refine (exact_buildSpaces d).bind fun spaces hspaces => ?_
    refine (exact_findSpace hspaces d.stackSpace).bind fun stack _ => ?_
    refine exact_addTypes (TypeTable.agrees_empty _ stack d.stackSpace) fun env types hagrees => ?_
    have hstart := holds_start hspaces hagrees stack d.typeRecoveryStarted
    refine (exact_addSymbols hstart).bind fun r hr => ?_
    refine (exact_addVarnodes hr).bind fun n hn => ?_
    refine (exact_addOps hn _).bind fun n hn => ?_
    refine (exact_addRecommendations hn).bind fun r hr => ?_
    refine (exact_addHeritages hr).bind fun r hr => ?_
    exact (exact_setPrototype hr d.prototype).map fun r hr => hr.toMadeOf
  · constructor
    · rintro ⟨hspaces, hstack, env, htypes, hsymbols, ⟨hnames, hvarnodes⟩, ⟨hops, hresults⟩,
        hrecommendations, hheritage, hprototype⟩
      exact ⟨env, hspaces, hstack, htypes, hsymbols, hnames, hvarnodes, hops, hresults,
        hrecommendations, hheritage, hprototype⟩
    · rintro ⟨env, h⟩
      exact ⟨h.spaces, h.stack, env, h.types, h.symbols, ⟨h.varnodeNames, h.varnodes⟩,
        ⟨h.ops, h.results⟩, h.recommendations, h.heritage, h.prototype⟩

/-- A description is built exactly if it is valid, and then from its own parts. -/
theorem exact_build (d : Description) :
    Exact d.Valid (fun n => n.MadeOf d.spaces d.varnodes d.ops) d.build := by
  rw [build_eq]
  exact (exact_unmasked d).map fun n hn => hn.of_sameParts (Graph.sameParts_installMasks d _)

/-- A function is built exactly from the valid descriptions, and its values and ops are those of the
description in their order. -/
theorem build_ok_iff_valid (d : Description) :
    ((∃ n, d.build = .ok n) ↔ d.Valid) ∧
      ∀ n, d.build = .ok n → n.MadeOf d.spaces d.varnodes d.ops :=
  ⟨(exact_build d).ok_iff, fun _ hn => (exact_build d).result hn⟩

/-- A field of a record in the frame is read through a pointer. The record is declared twice. -/
def recordRead : Description where
  name := "read"
  spaces := [⟨"ram", .processor, 8, 1, false⟩, ⟨"stack", .stack, 8, 1, false⟩]
  stackSpace := "stack"
  types :=
    [⟨.struct, "entry", 8, [⟨0, "key", "int4"⟩, ⟨4, "tags", "uint2[2]"⟩]⟩,
      ⟨.union, "cell", 8, [⟨0, "entry", "entry"⟩, ⟨0, "link", "entry *"⟩]⟩,
      ⟨.struct, "entry", 8, [⟨0, "key", "int4"⟩, ⟨4, "tags", "uint2[2]"⟩]⟩]
  symbols := [⟨"saved", "cell", true⟩]
  varnodes :=
    [{ name := "base", space := "ram", offset := 0, size := 8, spaceBase := true },
      { name := "step", space := "const", offset := 16, size := 8 },
      { name := "at", space := "ram", offset := 8, size := 8, type := some "entry *" },
      { name := "key", space := "ram", offset := 16, size := 4, symbol := some ⟨"saved", 0⟩ }]
  ops :=
    [{ opcode := .intAdd, address := 256, inputs := ["base", "step"], output := some "at" },
      { opcode := .load, address := 260, inputs := ["step", "at"], output := some "key" }]
  recommendations := [⟨"ram", 0, "spacebase *"⟩]
  heritage := [("stack", 1)]
  prototype := ⟨true, some "int4"⟩

/-- The description is valid, but not if another record of the same name comes first, or if the base
register is written. -/
theorem recordRead_valid : recordRead.Valid ∧
    (∃ n, recordRead.build = .ok n ∧
      n.MadeOf recordRead.spaces recordRead.varnodes recordRead.ops) ∧
    ¬Valid { recordRead with types := ⟨.struct, "entry", 12, []⟩ :: recordRead.types } ∧
    ¬Valid { recordRead with
      ops := [{ opcode := .copy, inputs := ["step"], output := some "base" }] } := by
  have hbuilt (d : Description) : (∃ n, d.build = .ok n) ↔ d.build.isOk = true := by
    cases d.build with
    | ok n => exact ⟨fun _ => rfl, fun _ => ⟨n, rfl⟩⟩
    | error e => simp [Except.isOk, Except.toBool]
  obtain ⟨n, hn⟩ := (hbuilt recordRead).mpr (by decide +kernel)
  refine ⟨(build_ok_iff_valid recordRead).1.mp ⟨n, hn⟩,
    ⟨n, hn, (build_ok_iff_valid recordRead).2 n hn⟩, fun hvalid => ?_, fun hvalid => ?_⟩
  · exact absurd ((hbuilt _).mp ((build_ok_iff_valid _).1.mpr hvalid)) (by decide +kernel)
  · exact absurd ((hbuilt _).mp ((build_ok_iff_valid _).1.mpr hvalid)) (by decide +kernel)

end Description

end TypeRecovery
