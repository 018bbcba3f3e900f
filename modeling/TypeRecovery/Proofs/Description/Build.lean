import TypeRecovery.Description.Build
import TypeRecovery.Proofs.DataType.Construction
import TypeRecovery.Proofs.Graph.Links

/-!
# The parts of a description keep the function well-formed

Each part of a description adds types, values or ops to the function and refers only to what the
parts before it have added. So the function stays well-formed, and no op writes a constant. There is
one lemma for each part.
-/

namespace TypeRecovery

/-! ## Changes of a function -/

namespace Routine

variable {r r' : Routine}

open TypeTable (Grown)

/-- A function without values is well-formed. -/
theorem wellFormed_empty (name : String) (spaces : SpaceTable) (stack : Nat) {t : TypeTable}
    (ht : t.WellFormed) : (Routine.empty name spaces stack t).WellFormed where
  graph := Graph.wellFormed_iff.mpr (by simp [Routine.empty, Graph.byLocation])
  types := ht
  sizes := rfl
  typings := by simp [Routine.empty]
  mentioned := ⟨by simp [Routine.empty], by simp [Routine.empty], by simp [Routine.empty]⟩

/-- A table that has grown may take the place of the old one. -/
theorem WellFormed.withTypes (hr : r.WellFormed) {t : TypeTable} (ht : Grown r.state.types t) :
    (r.withTypes t).WellFormed where
  graph := hr.graph
  types := ht.wellFormed hr.types
  sizes := hr.sizes
  typings y hy := ⟨ht.extends.has (hr.typings y hy).1, ht.extends.has (hr.typings y hy).2⟩
  mentioned := hr.mentioned.mono ht.extends

/-- A change of the graph that keeps its links keeps the function well-formed. -/
theorem WellFormed.modifyGraph (hr : r.WellFormed) {f : Graph → Graph}
    (hlinks : r.graph.SameLinks (f r.graph)) (hmentioned : (f r.graph).TypesIn r.state.types) :
    (r.modifyGraph f).WellFormed :=
  ⟨hlinks.wellFormed hr.graph, hr.types, hr.sizes.trans hlinks.size.symm, hr.typings, hmentioned⟩

/-- A new value, which nothing reads or writes, has the unknown type of its size. -/
theorem WellFormed.addVarnode (hr : r.WellFormed) {node : Varnode} (hreaders : node.readers = [])
    (hdefinition : node.definition = none) : (r.addVarnode node).WellFormed := by
  have hunknown := r.state.types.built_atom node.size .unknown
  have htypes := hr.withTypes hunknown.grown
  refine ⟨hr.graph.addVarnode hreaders hdefinition, htypes.types, ?_, fun y hy => ?_,
    ⟨htypes.mentioned.symbols, htypes.mentioned.recommendations, htypes.mentioned.prototype⟩⟩
  · simp [Routine.addVarnode, Graph.addVarnode, hr.sizes]
  · rcases Array.mem_push.mp hy with hold | rfl
    · exact htypes.typings y hold
    · exact ⟨hunknown.has, hunknown.has⟩

/-- A new value is not locked, and its type is the same for now and for good. -/
theorem typing_addVarnode (r : Routine) (node : Varnode) (v : Nat) :
    (r.addVarnode node).state.typing v =
      if v = r.state.values.size then
        ⟨(r.state.types.unknown node.size).id, (r.state.types.unknown node.size).id, false, false⟩
      else r.state.typing v := by
  rw [TypeState.typing, Routine.addVarnode, Array.getElem?_push]
  split <;> rfl

/-- A new value has the same type for both of its types. -/
theorem agreed_addVarnode (h : r.state.Agreed) (node : Varnode) :
    (r.addVarnode node).state.Agreed := by
  intro v
  rw [TypeState.temporary, TypeState.committed, typing_addVarnode]
  split
  · rfl
  · exact h v

/-- An op that the graph takes is added to the function. -/
theorem tryOp_of_accepts {op : Op} (h : r.graph.Accepts op) :
    r.tryOp op = .ok r.graph.ops.size (r.modifyGraph (·.linkOp op)) := by
  rw [tryOp, h.addOp]
  rfl

/-- An op that the graph does not take leaves the function as it is. -/
theorem tryOp_of_not_accepts {op : Op} (h : ¬r.graph.Accepts op) :
    ∃ e, r.tryOp op = .error e r := by
  obtain ⟨e, he⟩ := Graph.addOp_of_not_accepts h
  refine ⟨e, ?_⟩
  rw [tryOp, he]
  rfl

/-- Only an acceptable op is added, and then it is linked. -/
theorem accepts_of_newOp {op : Op} (h : r.newOp op = .ok r') :
    r.graph.Accepts op ∧ r' = r.modifyGraph (·.linkOp op) := by
  rw [newOp] at h
  by_cases haccepts : r.graph.Accepts op
  · rw [tryOp_of_accepts haccepts] at h
    cases h
    exact ⟨haccepts, rfl⟩
  · obtain ⟨e, he⟩ := tryOp_of_not_accepts haccepts
    rw [he] at h
    cases h

/-- Linking an acceptable op keeps the function well-formed. -/
theorem WellFormed.linkOp (hr : r.WellFormed) {op : Op} (h : r.graph.Accepts op) :
    (r.modifyGraph (·.linkOp op)).WellFormed :=
  ⟨h.linked.wellFormed hr.graph h.unwritten, hr.types, hr.sizes.trans h.linked.size.symm,
    hr.typings, h.linked.mentions.typesIn hr.mentioned⟩

end Routine

/-! ## Computations that may fail -/

/-- A computation that goes on after another one gives a result only if both do. -/
theorem bind_eq_ok {α β : Type} {x : Except GraphError α} {f : α → Except GraphError β} {b : β}
    (h : x >>= f = .ok b) : ∃ a, x = .ok a ∧ f a = .ok b := by
  cases x with
  | ok a => exact ⟨a, rfl, h⟩
  | error e => cases h

/-- What each step of a fold over the elements of a list keeps, the fold keeps. -/
theorem foldlM_keeps_mem {α β : Type} {P : β → Prop} {f : β → α → Except GraphError β} {l : List α}
    (hf : ∀ b, ∀ a ∈ l, ∀ b', P b → f b a = .ok b' → P b') {b b' : β} (hb : P b)
    (h : l.foldlM f b = .ok b') : P b' := by
  induction l generalizing b with
  | nil =>
    cases h
    exact hb
  | cons a rest ih =>
    rw [List.foldlM_cons] at h
    obtain ⟨next, hnext, hrest⟩ := bind_eq_ok h
    exact ih (fun b x hx => hf b x (List.mem_cons_of_mem a hx))
      (hf b a List.mem_cons_self next hb hnext) hrest

/-- What each step of a fold keeps, the fold keeps. -/
theorem foldlM_keeps {α β : Type} {P : β → Prop} {f : β → α → Except GraphError β}
    (hf : ∀ b a b', P b → f b a = .ok b' → P b') {l : List α} {b b' : β} (hb : P b)
    (h : l.foldlM f b = .ok b') : P b' :=
  foldlM_keeps_mem (fun b a _ => hf b a) hb h

/-! ## Type expressions -/

namespace TypeExpr

open TypeTable (Built Grown)

/-- Declared names mean types of the table. -/
def Names.In (names : Names) (t : TypeTable) : Prop := ∀ entry ∈ names.declared, t.Has entry.2

variable {names : Names} {t u : TypeTable} {result : Interned}

/-- Declared names stay names of types when the table grows. -/
theorem Names.In.mono (h : names.In t) (hu : Grown t u) : names.In u :=
  fun entry hentry => hu.extends.has (h entry hentry)

/-- A name that is found was declared. -/
theorem Names.mem_of_lookup {name : String} {id : TypeId}
    (h : names.declared.lookup name = some id) : (name, id) ∈ names.declared := by
  obtain ⟨before, after, hl, -⟩ := List.lookup_eq_some_iff.mp h
  rw [hl]
  exact List.mem_append_right _ List.mem_cons_self

/-- A name means a type that was built from the table. -/
theorem built_resolveName (hn : names.In t) {name : String}
    (h : resolveName names t name = .ok result) : t.Built result := by
  rw [resolveName] at h
  split at h
  · rename_i id hid
    cases h
    exact TypeTable.built_self (hn (name, id) (Names.mem_of_lookup hid))
  · split at h
    · cases h
      exact t.built_void
    · split at h
      · cases h
        exact t.built_atom 1 .code
      · split at h
        · cases h
          exact t.built_spacebase _ _
        · split at h
          · cases h
            exact t.built_atom _ _
          · cases h

/-- An expression denotes a type of the table that it leaves behind. -/
theorem built_resolve (hn : names.In t) {e : TypeExpr} (h : resolve names t e = .ok result) :
    t.Built result := by
  induction e generalizing result with
  | atom name => exact built_resolveName hn h
  | pointer target ih =>
    rw [resolve] at h
    split at h
    · rename_i inner hinner
      cases h
      exact (ih hinner).trans (TypeTable.built_pointerSized _ 1 (ih hinner).has)
    · cases h
  | array element count ih =>
    rw [resolve] at h
    split at h
    · rename_i inner hinner
      exact (ih hinner).trans ((TypeTable.leaves_array (ih hinner).has count).built_of_eq
        (Answer.interned_eq_ok_iff.mp h))
    · cases h

/-- A text means a type that was built from the table. -/
theorem built_denote (hn : names.In t) {text : String} (h : denote names t text = .ok result) :
    t.Built result := by
  rw [denote] at h
  split at h
  · exact built_resolve hn h
  · cases h

end TypeExpr

namespace Description

open TypeTable (Built Grown)
open TypeExpr (Names)

/-! ## Declared types -/

/-- The declared types so far exist, and so do their components. -/
structure Types.Sound (types : Types) : Prop where
  /-- Components are older than their types. -/
  table : types.table.WellFormed
  /-- Declared names mean types of the table. -/
  names : types.names.In types.table

/-- The fields of a declaration and the table that was grown from the one before it. -/
structure FieldsIn (t : TypeTable) (acc : List Field × TypeTable) : Prop where
  /-- The table only grows. -/
  grown : Grown t acc.2
  /-- The types of the fields exist. -/
  types : ∀ id ∈ acc.1.map (·.type), acc.2.Has id

/-- The type of a declared field exists. -/
theorem FieldsIn.addField {names : Names} {t : TypeTable} (hn : names.In t)
    {acc acc' : List Field × TypeTable} (hacc : FieldsIn t acc) {d : FieldDecl}
    (h : addField names acc d = .ok acc') : FieldsIn t acc' := by
  obtain ⟨result, hresult, hok⟩ := bind_eq_ok h
  cases hok
  have hbuilt := TypeExpr.built_denote (hn.mono hacc.grown) hresult
  refine ⟨hacc.grown.trans hbuilt.grown, fun id hid => ?_⟩
  rw [List.map_append, List.mem_append] at hid
  rcases hid with hold | hnew
  · exact hbuilt.grown.extends.has (hacc.types id hold)
  · rw [List.mem_singleton.mp hnew]
    exact hbuilt.has

/-- A declaration resolves the types of its fields, and then makes a structure or a union. -/
theorem exists_of_addType {types types' : Types} {d : TypeDecl}
    (h : addType types d = .ok types') : ∃ fields table result,
      d.fields.foldlM (addField types.names) ([], types.table) = .ok (fields, table) ∧
      (table.tryStruct d.name d.size.toNat fields = Interned.answer result ∨
        table.tryUnion d.name d.size.toNat fields = result.answer) ∧
      types' = ⟨{ types.names with declared := (d.name, result.id) :: types.names.declared },
        result.table⟩ := by
  obtain ⟨⟨fields, table⟩, hfields, hrest⟩ := bind_eq_ok h
  dsimp only at hrest
  split at hrest
  · obtain ⟨result, hresult, hok⟩ := bind_eq_ok hrest
    cases hok
    exact ⟨fields, table, result, hfields, .inl (Answer.interned_eq_ok_iff.mp hresult), rfl⟩
  · obtain ⟨result, hresult, hok⟩ := bind_eq_ok hrest
    cases hok
    exact ⟨fields, table, result, hfields, .inr (Answer.interned_eq_ok_iff.mp hresult), rfl⟩

/-- A structure or union of fields whose types exist is built. -/
theorem built_declared {t : TypeTable} {name : String} {size : Nat} {fields : List Field}
    {result : Interned} (hf : ∀ id ∈ fields.map (·.type), t.Has id)
    (h : t.tryStruct name size fields = result.answer ∨
      t.tryUnion name size fields = result.answer) :
    t.Built result :=
  h.elim (TypeTable.leaves_struct hf name size).built_of_eq
    (TypeTable.leaves_union hf name size).built_of_eq

/-- A declared type keeps the declarations sound. -/
theorem Types.Sound.addType {types types' : Types} (ht : types.Sound) {d : TypeDecl}
    (h : addType types d = .ok types') : types'.Sound := by
  obtain ⟨fields, table, result, hfields, hmade, rfl⟩ := exists_of_addType h
  have hin : FieldsIn types.table (fields, table) :=
    foldlM_keeps (fun _ _ _ hacc hstep => hacc.addField ht.names hstep)
      ⟨.refl, by simp⟩ hfields
  have hbuilt := built_declared hin.types hmade
  refine ⟨hbuilt.grown.wellFormed (hin.grown.wellFormed ht.table), fun entry hentry => ?_⟩
  rcases List.mem_cons.mp hentry with rfl | hold
  · exact hbuilt.has
  · exact hbuilt.grown.extends.has (hin.grown.extends.has (ht.names entry hold))

/-! ## The parts of a function -/

/-- A well-formed function whose table holds the declared types. -/
structure Sound (names : Names) (r : Routine) : Prop where
  /-- The function is well-formed. -/
  wellFormed : r.WellFormed
  /-- No op writes a constant, and location order states the sizes of the values. -/
  placed : r.graph.Placed
  /-- Declared names mean types of its table. -/
  names : names.In r.state.types

namespace Sound

variable {names : Names} {r r' : Routine}

/-- Denoting a type adds to the table and gives a type of it. -/
theorem denoteIn (hr : Sound names r) {text : String} {id : Nat}
    (h : Description.denoteIn names r text = .ok (id, r')) :
    Sound names r' ∧ r'.state.types.Has id ∧ r'.graph = r.graph := by
  obtain ⟨result, hresult, hok⟩ := bind_eq_ok h
  cases hok
  have hbuilt := TypeExpr.built_denote hr.names hresult
  exact ⟨⟨hr.wellFormed.withTypes hbuilt.grown, hr.placed, hr.names.mono hbuilt.grown⟩,
    hbuilt.has, rfl⟩

/-- A change of the graph that keeps its links keeps the function sound. -/
theorem modifyGraph (hr : Sound names r) {f : Graph → Graph}
    (hlinks : r.graph.SameLinks (f r.graph)) (hmentioned : (f r.graph).TypesIn r.state.types) :
    Sound names (r.modifyGraph f) :=
  ⟨hr.wellFormed.modifyGraph hlinks hmentioned, hlinks.placed hr.placed, hr.names⟩

/-- Labels do not matter. -/
theorem relabel (hr : Sound names r) {f : Graph → Graph} (hf : r.graph.Relabels (f r.graph)) :
    Sound names (r.modifyGraph f) :=
  hr.modifyGraph hf.toSameLinks (hf.mentions.typesIn hr.wellFormed.mentioned)

/-- Adding a symbol keeps the function sound. -/
theorem addSymbol (hr : Sound names r) {d : SymbolDecl}
    (h : Description.addSymbol names r d = .ok r') : Sound names r' := by
  obtain ⟨⟨type, typed⟩, hdenote, hok⟩ := bind_eq_ok h
  cases hok
  obtain ⟨hs, htype, -⟩ := hr.denoteIn hdenote
  have hmentioned := hs.wellFormed.mentioned
  refine hs.modifyGraph (.of_parts rfl rfl rfl)
    ⟨fun x hx => ?_, hmentioned.recommendations, hmentioned.prototype⟩
  rcases Array.mem_push.mp hx with hold | rfl
  · exact hmentioned.symbols x hold
  · exact htype

/-- Adding a recommendation keeps the function sound. -/
theorem addRecommendation (hr : Sound names r) {d : RecommendationDecl}
    (h : Description.addRecommendation names r d = .ok r') : Sound names r' := by
  obtain ⟨space, -, hrest⟩ := bind_eq_ok h
  obtain ⟨⟨type, typed⟩, hdenote, hok⟩ := bind_eq_ok hrest
  cases hok
  obtain ⟨hs, htype, -⟩ := hr.denoteIn hdenote
  have hmentioned := hs.wellFormed.mentioned
  refine hs.modifyGraph (.of_parts rfl rfl rfl)
    ⟨hmentioned.symbols, fun x hx => ?_, hmentioned.prototype⟩
  rcases List.mem_append.mp hx with hold | hnew
  · exact hmentioned.recommendations x hold
  · rw [List.mem_singleton.mp hnew]
    exact htype

/-- Noting heritage passes keeps the function sound. -/
theorem addHeritage (hr : Sound names r) {entry : String × UInt32}
    (h : Description.addHeritage r entry = .ok r') : Sound names r' := by
  obtain ⟨space, -, hok⟩ := bind_eq_ok h
  cases hok
  exact hr.relabel ⟨.of_parts rfl rfl rfl, ⟨rfl, rfl, rfl⟩⟩

/-- Describing the prototype keeps the function sound. -/
theorem setPrototype (hr : Sound names r) {d : PrototypeDecl}
    (h : Description.setPrototype names r d = .ok r') : Sound names r' := by
  rw [Description.setPrototype] at h
  split at h
  · cases h
    have hmentioned := hr.wellFormed.mentioned
    exact hr.modifyGraph (.of_parts rfl rfl rfl)
      ⟨hmentioned.symbols, hmentioned.recommendations, fun id hid => by cases hid⟩
  · obtain ⟨⟨type, typed⟩, hdenote, hok⟩ := bind_eq_ok h
    cases hok
    obtain ⟨hs, htype, -⟩ := hr.denoteIn hdenote
    have hmentioned := hs.wellFormed.mentioned
    refine hs.modifyGraph (.of_parts rfl rfl rfl)
      ⟨hmentioned.symbols, hmentioned.recommendations, fun id hid => ?_⟩
    cases hid
    exact htype

/-- A change of the types to valid ones keeps the function sound. -/
theorem modifyState (hr : Sound names r) {f : TypeState → TypeState}
    (htypes : (f r.state).types = r.state.types)
    (hsize : (f r.state).values.size = r.state.values.size) (hvalid : (f r.state).Valid) :
    Sound names (r.modifyState f) where
  wellFormed := by
    refine hr.wellFormed.of_valid rfl ?_ hsize hvalid
    change r.state.types.Extends (f r.state).types
    rw [htypes]
    exact .refl _
  placed := hr.placed
  names := by
    change names.In (f r.state).types
    rw [htypes]
    exact hr.names

/-- Giving a value its type keeps the function sound. -/
theorem typeVarnode (hr : Sound names r) (hpos : 0 < r.graph.varnodes.size) {v : Nat}
    {d : VarnodeDecl} (h : Description.typeVarnode names r v d = .ok r') : Sound names r' := by
  rw [Description.typeVarnode] at h
  split at h
  · obtain ⟨⟨type, typed⟩, hdenote, hrest⟩ := bind_eq_ok h
    obtain ⟨hs, htype, hgraph⟩ := hr.denoteIn hdenote
    have hvalid : typed.state.Valid := hs.wellFormed.valid (by rw [hgraph]; exact hpos)
    dsimp only at hrest
    split at hrest
    · cases hrest
      exact hs.modifyState rfl TypeState.size_lock (hvalid.lock htype)
    · cases hrest
      refine hs.modifyState (by simp) (by simp) ((hvalid.commit htype).setTemporary ?_)
      rw [TypeState.types_commit]
      exact htype
  · split at h
    · cases h
      have hvalid := hr.wellFormed.valid hpos
      exact hr.modifyState rfl TypeState.size_lock (hvalid.lock (hvalid.committed v))
    · cases h
      exact hr

/-- Binding a value to a symbol keeps the function sound. -/
theorem bindVarnode (hr : Sound names r) {v space : Nat} {d : VarnodeDecl}
    (h : Description.bindVarnode r v d space = .ok r') : Sound names r' := by
  rw [Description.bindVarnode] at h
  split at h
  · cases h
    exact hr
  · split at h
    · cases h
    · cases h
      exact hr.relabel (r.graph.relabels_bindSymbol v _)

/-- A new value that no op uses keeps the function sound. -/
theorem newValue (hr : Sound names r) {node : Varnode} (hreaders : node.readers = [])
    (hdefinition : node.definition = none) : Sound names (r.addVarnode node) :=
  ⟨hr.wellFormed.addVarnode hreaders hdefinition,
    hr.placed.addVarnode hr.wellFormed.graph hdefinition,
    hr.names.mono (r.state.types.built_atom node.size .unknown).grown⟩

/-- Marking a value keeps the function sound. -/
theorem flagVarnode (hr : Sound names r) (v : Nat) (d : VarnodeDecl) :
    Sound names (r.modifyGraph fun g => Description.flagVarnode g v d) := by
  apply hr.relabel
  rw [Description.flagVarnode]
  split
  · exact (r.graph.relabels_setSpaceBase v).trans
      (Graph.relabels_modifyVarnode _ v (fun _ => rfl) (fun _ => rfl) (fun _ => rfl) fun _ => rfl)
  · exact Graph.relabels_modifyVarnode _ v (fun _ => rfl) (fun _ => rfl) (fun _ => rfl) fun _ => rfl

end Sound

/-- Adding an op keeps the function sound. -/
theorem Sound.addOp {names : Names} {n n' : NamedRoutine} (hn : Sound names n.routine)
    {code : Nat} {d : OpDecl} (h : Description.addOp code n d = .ok n') :
    Sound names n'.routine := by
  obtain ⟨inputs, -, hrest⟩ := bind_eq_ok h
  obtain ⟨output, -, hrest⟩ := bind_eq_ok hrest
  dsimp only at hrest
  split at hrest
  · cases hrest
  · obtain ⟨routine, hroutine, hok⟩ := bind_eq_ok hrest
    cases hok
    obtain ⟨haccepts, rfl⟩ := Routine.accepts_of_newOp hroutine
    exact ⟨hn.wellFormed.linkOp haccepts, haccepts.linked.placed hn.placed haccepts.constant,
      hn.names⟩

/-! ## Masks -/

/-- Setting masks only labels the graph. -/
theorem relabels_setMasks (written : Bool) (g : Graph) (given : List (VarnodeId × UInt64)) :
    g.Relabels (setMasks written g given) := by
  rw [setMasks]
  induction given generalizing g with
  | nil => exact .refl g
  | cons entry rest ih =>
    rw [List.foldl_cons]
    refine Graph.Relabels.trans ?_ (ih _)
    dsimp only
    split
    · exact g.relabels_setMask _ _
    · exact .refl g

/-- Installing masks only labels the graph. -/
theorem relabels_installMasks (d : Description) (g : Graph) : g.Relabels (d.installMasks g) :=
  ((relabels_setMasks false g _).trans (Graph.relabels_computeMasks _)).trans
    (relabels_setMasks true _ _)

end Description

end TypeRecovery
