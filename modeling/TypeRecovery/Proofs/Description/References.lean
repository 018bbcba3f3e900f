import TypeRecovery.Proofs.Description.Build
import TypeRecovery.Proofs.Graph.Consistency
import TypeRecovery.Proofs.DataType.Bounds

/-!
# References of described functions

In the function that an accepted description describes, everything that is referred to exists, and
the types are within bounds. Spaces, symbols and values are found by name among those that were
added before, sizes are given by words of 32 bits, and the layout of a type is checked when it is
declared.
-/

namespace TypeRecovery

open TypeTable (Grown)

/-! ## Spaces -/

namespace Description

private theorem lt_of_findSpace {spaces : SpaceTable} {name : String} {id : Nat}
    (h : findSpace spaces name = .ok id) : id < spaces.size := by
  rw [findSpace] at h
  split at h
  · rename_i found hfound
    cases h
    exact (Array.findIdx?_eq_some_iff_getElem.mp hfound).1
  · cases h

/-- The units of all spaces fit 32 bits. -/
def UnitsFit (spaces : SpaceTable) : Prop := ∀ x ∈ spaces.spaces, x.wordSize < UInt32.size

/-- The units of a declared space fit. -/
theorem UnitsFit.addSpace {spaces spaces' : SpaceTable} (hs : UnitsFit spaces) {d : SpaceDecl}
    (h : Description.addSpace spaces d = .ok spaces') : UnitsFit spaces' := by
  obtain ⟨added, hadded, hok⟩ := bind_eq_ok h
  cases hok
  have hword : max d.wordSize.toNat 1 < UInt32.size :=
    Nat.max_lt.mpr ⟨UInt32.toNat_lt d.wordSize, by decide⟩
  have hall : UnitsFit added := by
    rw [SpaceTable.add] at hadded
    split at hadded
    · cases hadded
    · split at hadded
      · cases hadded
      · split at hadded
        · cases hadded
          intro x hx
          rcases Array.mem_push.mp hx with hold | rfl
          · exact hs x hold
          · exact hword
        · cases hadded
  intro x hx
  obtain ⟨i, hi, rfl⟩ := Array.mem_iff_getElem.mp hx
  have hi' : i < added.spaces.size := by simpa [SpaceTable.setBigEndian] using hi
  have hget := hall _ (Array.getElem_mem hi')
  simp only [SpaceTable.setBigEndian, Array.getElem_modify]
  split
  · exact hget
  · exact hget

private theorem unitsFit_buildSpaces {d : Description} {spaces : SpaceTable}
    (h : d.buildSpaces = .ok spaces) : UnitsFit spaces := by
  refine foldlM_keeps (fun _ _ _ hs hstep => hs.addSpace hstep) (fun x hx => ?_) h
  rw [List.mem_singleton.mp (Array.mem_toList_iff.mpr hx)]
  decide

end Description

/-- A graph without values is intact when its frame has a space. -/
theorem Routine.intact_empty (name : String) {spaces : SpaceTable} {stack : Nat} (t : TypeTable)
    (hstack : stack < spaces.size) (hunits : Description.UnitsFit spaces) :
    (Routine.empty name spaces stack t).graph.Intact where
  stack := hstack
  units := hunits
  valueSpaces v hv := absurd hv (Nat.not_lt_zero v)
  valueSizes v hv := absurd hv (Nat.not_lt_zero v)
  valueEntries v hv := absurd hv (Nat.not_lt_zero v)
  opSpaces op hop := absurd hop (Array.not_mem_empty op)
  indexed l hl := absurd hl List.not_mem_nil
  entrySymbols e he := absurd he (Array.not_mem_empty e)
  entrySpaces e he := absurd he (Array.not_mem_empty e)
  recommended x hx := absurd hx List.not_mem_nil
  heritage x hx := absurd hx List.not_mem_nil
  spaceBase v hv := by cases hv

/-! ## Type expressions -/

namespace TypeExpr

variable {names : Names} {t : TypeTable} {spaces : Nat} {result : Interned}

private theorem lt_of_sizedAtom? {name : String} {size : Nat} {a : Atom}
    (h : sizedAtom? name = some (size, a)) : size < UInt32.size := by
  obtain ⟨entry, -, hentry⟩ := List.exists_of_findSome?_eq_some h
  obtain ⟨rest, -, hrest⟩ := Option.bind_eq_some_iff.mp hentry
  obtain ⟨n, hn, hpair⟩ := Option.map_eq_some_iff.mp hrest
  cases hpair
  have hcount := (Option.filter_eq_some_iff.mp hn).1
  unfold count? at hcount
  exact of_decide_eq_true (Option.filter_eq_some_iff.mp hcount).2

private theorem laid_resolveName (hl : t.Laid spaces) (hstack : names.stack < spaces)
    {name : String} (h : resolveName names t name = .ok result) : result.table.Laid spaces := by
  rw [resolveName] at h
  split at h
  · cases h
    exact hl
  · split at h
    · cases h
      exact hl.void
    · split at h
      · cases h
        exact hl.atom (by decide : 1 < UInt32.size) .code
      · split at h
        · cases h
          exact hl.spacebase hstack _
        · split at h
          · rename_i size a hsized
            cases h
            exact hl.atom (lt_of_sizedAtom? hsized) a
          · cases h

/-- Resolving a type expression keeps the layouts within bounds. -/
theorem laid_resolve (hn : names.In t) (hl : t.Laid spaces) (hstack : names.stack < spaces)
    (hp : t.pointerSize < UInt32.size) {e : TypeExpr} (h : resolve names t e = .ok result) :
    result.table.Laid spaces := by
  induction e generalizing result with
  | atom name => exact laid_resolveName hl hstack h
  | pointer target ih =>
    rw [resolve] at h
    split at h
    · rename_i inner hinner
      cases h
      have hbuilt := built_resolve hn hinner
      refine (ih hinner).pointerSized ?_ 1 hbuilt.has
      rw [hbuilt.grown.extends.pointerSize]
      exact hp
    · cases h
  | array element count ih =>
    rw [resolve] at h
    split at h
    · rename_i inner hinner
      have hlaid := (ih hinner).array (built_resolve hn hinner).has count
      rw [Answer.interned_eq_ok_iff.mp h] at hlaid
      exact hlaid
    · cases h

private theorem laid_denote (hn : names.In t) (hl : t.Laid spaces) (hstack : names.stack < spaces)
    (hp : t.pointerSize < UInt32.size) {text : String} (h : denote names t text = .ok result) :
    result.table.Laid spaces := by
  rw [denote] at h
  split at h
  · exact laid_resolve hn hl hstack hp h
  · cases h

end TypeExpr

namespace Description

open TypeExpr (Names)

/-! ## Declared types -/

/-- The declared types so far are within bounds. -/
structure Types.Bounded (spaces : Nat) (types : Types) : Prop extends types.Sound where
  /-- The types of the table are within bounds. -/
  laid : types.table.Laid spaces
  /-- The size of pointers fits 32 bits. -/
  pointers : types.table.pointerSize < UInt32.size
  /-- The frame has a space. -/
  stack : types.names.stack < spaces

private theorem laid_addField {spaces : Nat} {types : Types} (ht : types.Bounded spaces)
    {acc acc' : List Field × TypeTable} (hacc : FieldsIn types.table acc)
    (hl : acc.2.Laid spaces) {d : FieldDecl} (h : addField types.names acc d = .ok acc') :
    acc'.2.Laid spaces := by
  obtain ⟨result, hresult, hok⟩ := bind_eq_ok h
  cases hok
  refine TypeExpr.laid_denote (ht.names.mono hacc.grown) hl ht.stack ?_ hresult
  rw [hacc.grown.extends.pointerSize]
  exact ht.pointers

/-- A declared type keeps the layouts within bounds. -/
theorem Types.Bounded.addType {spaces : Nat} {types types' : Types} (ht : types.Bounded spaces)
    {d : TypeDecl} (h : Description.addType types d = .ok types') : types'.Bounded spaces := by
  have hsound := ht.toSound.addType h
  obtain ⟨fields, table, result, hfields, hmade, rfl⟩ := exists_of_addType h
  obtain ⟨hin, hlaid⟩ : FieldsIn types.table (fields, table) ∧ table.Laid spaces :=
    foldlM_keeps (P := fun acc : List Field × TypeTable =>
        FieldsIn types.table acc ∧ acc.2.Laid spaces)
      (fun _ _ _ hacc hstep => ⟨hacc.1.addField ht.names hstep,
        laid_addField ht hacc.1 hacc.2 hstep⟩)
      ⟨⟨.refl, by simp⟩, ht.laid⟩ hfields
  have hsize := UInt32.toNat_lt d.size
  have hgrown := hin.grown.trans (built_declared hin.types hmade).grown
  refine ⟨hsound, ?_, hgrown.extends.pointerSize ▸ ht.pointers, ht.stack⟩
  rcases hmade with hstruct | hunion
  · have hleft := hlaid.struct hsize hin.types d.name
    rw [hstruct] at hleft
    exact hleft
  · have hleft := hlaid.union hsize hin.types d.name
    rw [hunion] at hleft
    exact hleft

/-! ## The parts of a function -/

/-- A function in the making: everything it refers to exists, its graph is in order, its types are
within bounds, and nothing was recovered yet. -/
structure Grounded (known : Names) (r : Routine) : Prop extends Sound known r where
  /-- What the graph refers to exists. -/
  intact : r.graph.Intact
  /-- Readers are in order, and inputs are not written. -/
  ordered : r.graph.Ordered
  /-- Types are within bounds. -/
  laid : r.state.types.Laid r.graph.spaces.size
  /-- The size of pointers fits 32 bits. -/
  pointers : r.state.types.pointerSize < UInt32.size
  /-- The frame has a space. -/
  stack : known.stack < r.graph.spaces.size
  /-- Every value has its committed type as its temporary type. -/
  agreed : r.state.Agreed
  /-- No field of a union was chosen. -/
  unchosen : r.state.choices = []
  /-- No round has run. -/
  unstarted : r.progress = .start

/-- The second graph has the spaces of the first and as many values. -/
structure SameExtent (g g' : Graph) : Prop where
  /-- The spaces are the same. -/
  spaces : g'.spaces = g.spaces
  /-- The number of values is the same. -/
  values : g'.varnodes.size = g.varnodes.size

/-- Extents are compared transitively. -/
theorem SameExtent.trans {g g' g'' : Graph} (h : SameExtent g g') (h' : SameExtent g' g'') :
    SameExtent g g'' :=
  ⟨h'.spaces.trans h.spaces, h'.values.trans h.values⟩

namespace Grounded

variable {names : Names} {r r' : Routine}

/-- A change of the graph keeps what is referred to, if the new graph does. -/
theorem modifyGraph (hr : Grounded names r) {f : Graph → Graph}
    (hs : Sound names (r.modifyGraph f)) (hi : (f r.graph).Intact) (ho : (f r.graph).Ordered)
    (hspaces : (f r.graph).spaces = r.graph.spaces) : Grounded names (r.modifyGraph f) where
  toSound := hs
  intact := hi
  ordered := ho
  laid := by
    change r.state.types.Laid (f r.graph).spaces.size
    rw [hspaces]
    exact hr.laid
  pointers := hr.pointers
  stack := by
    change names.stack < (f r.graph).spaces.size
    rw [hspaces]
    exact hr.stack
  agreed := hr.agreed
  unchosen := hr.unchosen
  unstarted := hr.unstarted

/-- A change of the types keeps what is referred to, if the table and the choices stay. -/
theorem modifyState (hr : Grounded names r) {f : TypeState → TypeState}
    (hs : Sound names (r.modifyState f)) (htypes : (f r.state).types = r.state.types)
    (hagreed : (f r.state).Agreed) (hchoices : (f r.state).choices = r.state.choices) :
    Grounded names (r.modifyState f) where
  toSound := hs
  intact := hr.intact
  ordered := hr.ordered
  laid := by
    change (f r.state).types.Laid r.graph.spaces.size
    rw [htypes]
    exact hr.laid
  pointers := by
    change (f r.state).types.pointerSize < UInt32.size
    rw [htypes]
    exact hr.pointers
  stack := hr.stack
  agreed := hagreed
  unchosen := hchoices.trans hr.unchosen
  unstarted := hr.unstarted

/-- Denoting a type keeps what is referred to. -/
theorem denoteIn (hr : Grounded names r) {text : String} {id : Nat}
    (h : Description.denoteIn names r text = .ok (id, r')) :
    Grounded names r' ∧ r'.graph = r.graph := by
  obtain ⟨hsound, -, hgraph⟩ := hr.toSound.denoteIn h
  obtain ⟨result, hresult, hok⟩ := bind_eq_ok h
  cases hok
  have hbuilt := TypeExpr.built_denote hr.names hresult
  refine ⟨⟨hsound, hr.intact, hr.ordered, ?_, ?_, hr.stack, hr.agreed, hr.unchosen,
    hr.unstarted⟩, hgraph⟩
  · exact TypeExpr.laid_denote hr.names hr.laid hr.stack hr.pointers hresult
  · change result.table.pointerSize < UInt32.size
    rw [hbuilt.grown.extends.pointerSize]
    exact hr.pointers

/-- Adding a symbol keeps what is referred to. -/
theorem addSymbol (hr : Grounded names r) {d : SymbolDecl}
    (h : Description.addSymbol names r d = .ok r') :
    Grounded names r' ∧ SameExtent r.graph r'.graph := by
  have hsound := hr.toSound.addSymbol h
  obtain ⟨⟨type, typed⟩, hdenote, hok⟩ := bind_eq_ok h
  cases hok
  obtain ⟨htyped, hgraph⟩ := hr.denoteIn hdenote
  exact ⟨htyped.modifyGraph hsound (htyped.intact.addSymbol _)
    (htyped.ordered.of_parts rfl rfl rfl) rfl, hgraph ▸ ⟨rfl, rfl⟩⟩

/-- Adding a recommendation keeps what is referred to. -/
theorem addRecommendation (hr : Grounded names r) {d : RecommendationDecl}
    (h : Description.addRecommendation names r d = .ok r') :
    Grounded names r' ∧ SameExtent r.graph r'.graph := by
  have hsound := hr.toSound.addRecommendation h
  obtain ⟨space, hspace, hrest⟩ := bind_eq_ok h
  obtain ⟨⟨type, typed⟩, hdenote, hok⟩ := bind_eq_ok hrest
  cases hok
  obtain ⟨htyped, hgraph⟩ := hr.denoteIn hdenote
  refine ⟨htyped.modifyGraph hsound (htyped.intact.addRecommendation ?_)
    (htyped.ordered.of_parts rfl rfl rfl) rfl, hgraph ▸ ⟨rfl, rfl⟩⟩
  rw [hgraph]
  exact lt_of_findSpace hspace

/-- Noting heritage passes keeps what is referred to. -/
theorem addHeritage (hr : Grounded names r) {entry : String × UInt32}
    (h : Description.addHeritage r entry = .ok r') :
    Grounded names r' ∧ SameExtent r.graph r'.graph := by
  have hsound := hr.toSound.addHeritage h
  obtain ⟨space, hspace, hok⟩ := bind_eq_ok h
  cases hok
  exact ⟨hr.modifyGraph hsound (hr.intact.setHeritage (lt_of_findSpace hspace))
    (hr.ordered.of_parts rfl rfl rfl) rfl, ⟨rfl, rfl⟩⟩

/-- Describing the prototype keeps what is referred to. -/
theorem setPrototype (hr : Grounded names r) {d : PrototypeDecl}
    (h : Description.setPrototype names r d = .ok r') :
    Grounded names r' ∧ SameExtent r.graph r'.graph := by
  have hsound := hr.toSound.setPrototype h
  rw [Description.setPrototype] at h
  split at h
  · cases h
    exact ⟨hr.modifyGraph hsound (hr.intact.withPrototype _) (hr.ordered.of_parts rfl rfl rfl) rfl,
      ⟨rfl, rfl⟩⟩
  · obtain ⟨⟨type, typed⟩, hdenote, hok⟩ := bind_eq_ok h
    cases hok
    obtain ⟨htyped, hgraph⟩ := hr.denoteIn hdenote
    exact ⟨htyped.modifyGraph hsound (htyped.intact.withPrototype _)
      (htyped.ordered.of_parts rfl rfl rfl) rfl, hgraph ▸ ⟨rfl, rfl⟩⟩

/-- Giving a value its type keeps what is referred to. -/
theorem typeVarnode (hr : Grounded names r) (hpos : 0 < r.graph.varnodes.size) {v : Nat}
    (hfree : r.state.locked v = false) {d : VarnodeDecl}
    (h : Description.typeVarnode names r v d = .ok r') :
    Grounded names r' ∧ r'.graph = r.graph := by
  have hsound := hr.toSound.typeVarnode hpos h
  rw [Description.typeVarnode] at h
  split at h
  · obtain ⟨⟨type, typed⟩, hdenote, hrest⟩ := bind_eq_ok h
    obtain ⟨htyped, hgraph⟩ := hr.denoteIn hdenote
    dsimp only at hrest
    split at hrest
    · cases hrest
      exact ⟨htyped.modifyState hsound rfl (htyped.agreed.lock v _) rfl, hgraph⟩
    · cases hrest
      have hfree' : typed.state.locked v = false := by
        obtain ⟨result, -, hok⟩ := bind_eq_ok hdenote
        cases hok
        exact hfree
      exact ⟨htyped.modifyState hsound (by simp) (htyped.agreed.commit hfree' _) (by simp),
        hgraph⟩
  · split at h
    · cases h
      exact ⟨hr.modifyState hsound rfl (hr.agreed.lock v _) rfl, rfl⟩
    · cases h
      exact ⟨hr, rfl⟩

/-- Binding a value to a symbol keeps what is referred to. -/
theorem bindVarnode (hr : Grounded names r) {v space : Nat} (hspace : space < r.graph.spaces.size)
    {d : VarnodeDecl} (h : Description.bindVarnode r v d space = .ok r') :
    Grounded names r' ∧ SameExtent r.graph r'.graph := by
  have hsound := hr.toSound.bindVarnode h
  rw [Description.bindVarnode] at h
  split at h
  · cases h
    exact ⟨hr, ⟨rfl, rfl⟩⟩
  · split at h
    · cases h
    · rename_i symbol hsymbol
      cases h
      have hlt : symbol < r.graph.symbols.size :=
        (Array.findIdx?_eq_some_iff_getElem.mp hsymbol).1
      exact ⟨hr.modifyGraph hsound (hr.intact.bindSymbol v hlt hspace) (hr.ordered.bindSymbol v _)
        rfl, ⟨rfl, (r.graph.relabels_bindSymbol v _).size⟩⟩

/-- A new value in a space that exists refers to nothing else. -/
theorem newValue (hr : Grounded names r) {node : Varnode} (hreaders : node.readers = [])
    (hdefinition : node.definition = none) (hspace : node.address.space < r.graph.spaces.size)
    (hsize : node.size < UInt32.size) (hentry : node.entry = none) :
    Grounded names (r.addVarnode node) where
  toSound := hr.toSound.newValue hreaders hdefinition
  intact := hr.intact.addVarnode (fun v hv => (hr.wellFormed.graph.located v).mp hv) hspace hsize
    hentry
  ordered := hr.ordered.addVarnode (fun v hv => (hr.wellFormed.graph.located v).mp hv) hreaders
    hdefinition
  laid := hr.laid.atom hsize .unknown
  pointers := by
    change (r.state.types.atom node.size .unknown).table.pointerSize < UInt32.size
    rw [(r.state.types.built_atom node.size .unknown).grown.extends.pointerSize]
    exact hr.pointers
  stack := hr.stack
  agreed := Routine.agreed_addVarnode hr.agreed node
  unchosen := hr.unchosen
  unstarted := hr.unstarted

/-- A declared value is placed where it is declared, without links and storage. -/
theorem exists_placeVarnode (r : Routine) (d : VarnodeDecl) (space : Nat) :
    ∃ node, Description.placeVarnode r d space = r.addVarnode node ∧ node.readers = [] ∧
      node.definition = none ∧ node.address.space = space ∧ node.size = d.size.toNat ∧
      node.entry = none := by
  rw [Description.placeVarnode]
  split
  · rename_i hconstant
    exact ⟨_, rfl, rfl, rfl, hconstant.symm, rfl, rfl⟩
  · split
    · exact ⟨_, rfl, rfl, rfl, rfl, rfl, rfl⟩
    · exact ⟨_, rfl, rfl, rfl, rfl, rfl, rfl⟩

/-- What holds of the value that was added last: nothing writes it, and it is not locked. -/
structure Fresh (r : Routine) (v : Nat) : Prop where
  /-- No op writes the value. -/
  definition : (r.graph.varnode v).definition = none
  /-- The type of the value is not fixed. -/
  locked : r.state.locked v = false

/-- Placing a value adds one value that no op uses. -/
theorem placeVarnode (hr : Grounded names r) (d : VarnodeDecl) {space : Nat}
    (hspace : space < r.graph.spaces.size) :
    Grounded names (Description.placeVarnode r d space) ∧
      Fresh (Description.placeVarnode r d space) r.graph.varnodes.size ∧
      (Description.placeVarnode r d space).graph.spaces = r.graph.spaces ∧
      (Description.placeVarnode r d space).graph.varnodes.size = r.graph.varnodes.size + 1 := by
  obtain ⟨node, heq, hreaders, hdefinition, haddress, hsize, hentry⟩ :=
    exists_placeVarnode r d space
  rw [heq]
  refine ⟨hr.newValue hreaders hdefinition (haddress ▸ hspace) ?_ hentry, ⟨?_, ?_⟩, rfl,
    Array.size_push _⟩
  · rw [hsize]
    exact UInt32.toNat_lt d.size
  · change ((r.graph.addVarnode node).varnode _).definition = none
    rw [Graph.varnode_addVarnode, if_pos rfl]
    exact hdefinition
  · rw [TypeState.locked, Routine.typing_addVarnode, if_pos hr.wellFormed.sizes.symm]

/-- Marking a value that no op writes keeps what is referred to. -/
theorem flagVarnode (hr : Grounded names r) {v : Nat} (hv : v < r.graph.varnodes.size)
    (hfresh : (r.graph.varnode v).definition = none) (d : VarnodeDecl) :
    Grounded names (r.modifyGraph fun g => Description.flagVarnode g v d) := by
  refine hr.modifyGraph (hr.toSound.flagVarnode v d) ?_ ?_ ?_
  · rw [Description.flagVarnode]
    split
    · exact (hr.intact.setSpaceBase hv).modifyVarnode v (fun _ => rfl) (fun _ => rfl) fun _ => rfl
    · exact hr.intact.modifyVarnode v (fun _ => rfl) (fun _ => rfl) fun _ => rfl
  · have hflags {g : Graph} (hg : g.Ordered) : (g.modifyVarnode v fun node =>
        { node with
          annotation := node.annotation || d.annotation
          addrTied := node.addrTied || d.addrTied }).Ordered :=
      hg.modifyVarnode v (fun _ => rfl) (fun _ => rfl) fun _ => rfl
    rw [Description.flagVarnode]
    split
    · exact hflags (hr.ordered.setSpaceBase hfresh)
    · exact hflags hr.ordered
  · rw [Description.flagVarnode]
    split <;> rfl

end Grounded

private theorem sameExtent_flagVarnode (g : Graph) (v : Nat) (d : VarnodeDecl) :
    SameExtent g (flagVarnode g v d) := by
  rw [flagVarnode]
  split
  · exact ⟨rfl, by simp [Graph.setSpaceBase, Graph.modifyVarnode]⟩
  · exact ⟨rfl, by simp [Graph.modifyVarnode]⟩

/-- A function in the making whose names are for values that exist. -/
structure Named (known : Names) (n : NamedRoutine) : Prop extends Grounded known n.routine where
  /-- Named values exist. -/
  values : ∀ x ∈ n.names, x.2 < n.routine.graph.varnodes.size

/-- Adding a value adds one value and its name. -/
theorem Named.addVarnode {names : Names} {n n' : NamedRoutine} (hn : Named names n)
    {d : VarnodeDecl} (h : Description.addVarnode names n d = .ok n') :
    Named names n' ∧ n'.routine.graph.spaces = n.routine.graph.spaces ∧
      n'.routine.graph.varnodes.size = n.routine.graph.varnodes.size + 1 := by
  rw [Description.addVarnode] at h
  split at h
  · cases h
  · split at h
    · cases h
    · obtain ⟨space, hspace, hrest⟩ := bind_eq_ok h
      obtain ⟨typed, htyped, hrest⟩ := bind_eq_ok hrest
      obtain ⟨bound, hbound, hok⟩ := bind_eq_ok hrest
      cases hok
      have hspace := lt_of_findSpace hspace
      obtain ⟨hplaced, hfresh, hspaces, hsize⟩ := hn.toGrounded.placeVarnode d hspace
      have hflagged := hplaced.flagVarnode (by omega) hfresh.definition d
      have hflags := sameExtent_flagVarnode (placeVarnode n.routine d space).graph
        n.routine.graph.varnodes.size d
      obtain ⟨htyped, hgraph⟩ := hflagged.typeVarnode
        (Nat.lt_of_lt_of_eq (by omega) hflags.values.symm) hfresh.locked htyped
      have hextent : SameExtent (placeVarnode n.routine d space).graph typed.graph :=
        hgraph ▸ hflags
      obtain ⟨hbound, hkept⟩ := htyped.bindVarnode
        (by rw [hextent.spaces, hspaces]; exact hspace) hbound
      have hall := hextent.trans hkept
      have htotal := hall.values.trans hsize
      refine ⟨⟨hbound, fun x hx => ?_⟩, hall.spaces.trans hspaces, htotal⟩
      dsimp only at hx ⊢
      rw [htotal]
      rcases List.mem_append.mp hx with hold | hnew
      · exact Nat.lt_succ_of_lt (hn.values x hold)
      · rw [List.mem_singleton.mp hnew]
        exact Nat.lt_succ_self _

/-- Adding an op keeps the values and their names. -/
theorem Named.addOp {names : Names} {n n' : NamedRoutine} (hn : Named names n) {code : Nat}
    (hcode : code < n.routine.graph.spaces.size) {d : OpDecl}
    (h : Description.addOp code n d = .ok n') :
    Named names n' ∧ SameExtent n.routine.graph n'.routine.graph := by
  have hsound := hn.toSound.addOp h
  obtain ⟨inputs, -, hrest⟩ := bind_eq_ok h
  obtain ⟨output, -, hrest⟩ := bind_eq_ok hrest
  dsimp only at hrest
  split at hrest
  · cases hrest
  · obtain ⟨routine, hroutine, hok⟩ := bind_eq_ok hrest
    cases hok
    obtain ⟨haccepts, rfl⟩ := Routine.accepts_of_newOp hroutine
    have hsame := n.routine.graph.samePlaces_linkOp
      { opcode := d.opcode, address := ⟨code, d.address⟩, inputs, output, dead := d.dead,
        halt := d.halt, stopsPropagation := d.stopsPropagation, creation := d.creation }
    refine ⟨⟨⟨hsound, hn.intact.linkOp hcode haccepts,
      hn.ordered.linkOp hn.wellFormed.graph haccepts, ?_, hn.pointers, ?_, hn.agreed, hn.unchosen,
      hn.unstarted⟩, ?_⟩, ⟨hsame.spaces, hsame.size⟩⟩
    · exact hsame.spaces ▸ hn.laid
    · exact hsame.spaces ▸ hn.stack
    · exact fun x hx => hsame.size ▸ hn.values x hx

/-- Adding ops one after the other keeps the values and their names. -/
theorem Named.addOps {names : Names} {code : Nat} {todo : List OpDecl} {n n' : NamedRoutine}
    (hn : Named names n) (hcode : code < n.routine.graph.spaces.size)
    (h : todo.foldlM (Description.addOp code) n = .ok n') :
    Named names n' ∧ SameExtent n.routine.graph n'.routine.graph := by
  refine foldlM_keeps (P := fun x => Named names x ∧ SameExtent n.routine.graph x.routine.graph)
    (fun x _ _ hx hstep => ?_) ⟨hn, ⟨rfl, rfl⟩⟩ h
  obtain ⟨hnext, hsame⟩ := hx.1.addOp (by rw [hx.2.spaces]; exact hcode) hstep
  exact ⟨hnext, hx.2.trans hsame⟩

/-- Adding values one after the other adds as many of them. -/
theorem Named.addVarnodes {names : Names} {todo : List VarnodeDecl} {n n' : NamedRoutine}
    (hn : Named names n) (h : todo.foldlM (Description.addVarnode names) n = .ok n') :
    Named names n' ∧ n'.routine.graph.spaces = n.routine.graph.spaces ∧
      n'.routine.graph.varnodes.size = n.routine.graph.varnodes.size + todo.length := by
  induction todo generalizing n with
  | nil =>
    cases h
    exact ⟨hn, rfl, rfl⟩
  | cons d rest ih =>
    rw [List.foldlM_cons] at h
    obtain ⟨next, hnext, hrest⟩ := bind_eq_ok h
    obtain ⟨hnamed, hspaces, hsize⟩ := hn.addVarnode hnext
    obtain ⟨hlast, hlater, hcount⟩ := ih hnamed hrest
    refine ⟨hlast, hlater.trans hspaces, ?_⟩
    rw [hcount, hsize, List.length_cons]
    omega

/-! ## Masks -/

private theorem samePlaces_setMasks (written : Bool) (g : Graph)
    (given : List (VarnodeId × UInt64)) : g.SamePlaces (setMasks written g given) := by
  rw [setMasks]
  refine List.foldlRecOn (motive := fun x : Graph => g.SamePlaces x) given _ (.refl g)
    fun x hx entry _ => ?_
  dsimp only
  split
  · exact hx.trans (x.samePlaces_setMask _ _)
  · exact hx

private theorem samePlaces_installMasks (d : Description) (g : Graph) :
    g.SamePlaces (d.installMasks g) :=
  ((samePlaces_setMasks false g _).trans (Graph.samePlaces_computeMasks _)).trans
    (samePlaces_setMasks true _ _)

private theorem ordered_setMasks (written : Bool) {g : Graph} (hg : g.Ordered)
    (given : List (VarnodeId × UInt64)) : (setMasks written g given).Ordered := by
  rw [setMasks]
  refine List.foldlRecOn (motive := Graph.Ordered) given _ hg fun x hx entry _ => ?_
  dsimp only
  split
  · exact hx.setMask _ _
  · exact hx

private theorem ordered_installMasks (d : Description) {g : Graph} (hg : g.Ordered) :
    (d.installMasks g).Ordered :=
  ordered_setMasks true (ordered_setMasks false hg _).computeMasks _

/-- Masks refer to nothing. -/
theorem Grounded.installMasks {names : Names} {r : Routine} (hr : Grounded names r)
    (d : Description) : Grounded names (r.modifyGraph d.installMasks) := by
  have hsame := d.samePlaces_installMasks r.graph
  have hlinks := d.relabels_installMasks r.graph
  refine hr.modifyGraph (hr.toSound.relabel hlinks) (hsame.intact hr.intact ?_)
    (d.ordered_installMasks hr.ordered) hsame.spaces
  rw [hlinks.ops]
  exact hr.intact.opSpaces

/-- Masks are given for declared values. -/
theorem lt_of_mem_givenMasks {d : Description} {x : VarnodeId × UInt64} (h : x ∈ d.givenMasks) :
    x.1 < d.varnodes.length := by
  obtain ⟨⟨v, i⟩, hmem, hx⟩ := List.mem_filterMap.mp h
  obtain ⟨mask, -, rfl⟩ := Option.map_eq_some_iff.mp hx
  have hlt := (List.mem_zipIdx hmem).2.1
  simpa using hlt

/-! ## The whole description -/

/-- A fold of steps that keep a function grounded and change neither its spaces nor the number of
its values. -/
theorem keeps_extent {α : Type} {names : Names} {f : Routine → α → Except GraphError Routine}
    (hf : ∀ r a r', Grounded names r → f r a = .ok r' →
      Grounded names r' ∧ SameExtent r.graph r'.graph) {todo : List α} {r r' : Routine}
    (hr : Grounded names r) (h : todo.foldlM f r = .ok r') :
    Grounded names r' ∧ SameExtent r.graph r'.graph :=
  foldlM_keeps (P := fun x => Grounded names x ∧ SameExtent r.graph x.graph)
    (fun x a x' hx hstep => ⟨(hf x a x' hx.1 hstep).1, hx.2.trans (hf x a x' hx.1 hstep).2⟩)
    ⟨hr, ⟨rfl, rfl⟩⟩ h

/-- The function that a description describes, before the masks of its values are computed. -/
def unmasked (d : Description) : Except GraphError NamedRoutine := do
  let spaces ← d.buildSpaces
  let stack ← findSpace spaces d.stackSpace
  let code := spaces.dataSpace?.getD stack
  let types ← d.types.foldlM addType
    ⟨{ stack, stackName := d.stackSpace }, TypeTable.empty d.pointerSize.toNat⟩
  let names := types.names
  let start : Routine :=
    { Routine.empty d.name spaces stack types.table with started := d.typeRecoveryStarted }
  let r ← d.symbols.foldlM (addSymbol names) start
  let n ← d.varnodes.foldlM (addVarnode names) { routine := r }
  let n ← d.ops.foldlM (addOp code) n
  let r ← d.recommendations.foldlM (addRecommendation names) n.routine
  let r ← d.heritage.foldlM addHeritage r
  let r ← setPrototype names r d.prototype
  return { n with routine := r }

/-- The masks come last. -/
theorem build_eq (d : Description) :
    d.build = (do return (← d.unmasked).modify (·.modifyGraph d.installMasks)) := by
  simp only [build, unmasked, bind_assoc, pure_bind]
  rfl

/-- A description is built without masks first, and then the masks are installed. -/
theorem build_eq_ok {d : Description} {n : NamedRoutine} (h : d.build = .ok n) :
    ∃ parts, d.unmasked = .ok parts ∧ n = parts.modify (·.modifyGraph d.installMasks) := by
  rw [build_eq] at h
  obtain ⟨parts, hparts, hok⟩ := bind_eq_ok h
  cases hok
  exact ⟨parts, hparts, rfl⟩

/-- The function without values, with the spaces and the types of a description. -/
theorem grounded_start {d : Description} {spaces : SpaceTable} {stack : Nat} {types : Types}
    (hspaces : d.buildSpaces = .ok spaces) (hstack : stack < spaces.size)
    (htypes : types.Bounded spaces.size) :
    Grounded types.names
      { Routine.empty d.name spaces stack types.table with started := d.typeRecoveryStarted } where
  wellFormed := (Routine.wellFormed_empty d.name spaces stack htypes.table).congr rfl rfl
  placed := Graph.placed_iff.mpr (by simp [Routine.empty])
  names := htypes.names
  intact := Routine.intact_empty d.name types.table hstack (unitsFit_buildSpaces hspaces)
  ordered := Graph.ordered_empty rfl rfl
  laid := htypes.laid
  pointers := htypes.pointers
  stack := htypes.stack
  agreed _ := rfl
  unchosen := rfl
  unstarted := rfl

/-- Everything that the parts of an accepted description refer to exists, and each declared value is
there. -/
theorem named_unmasked {d : Description} {n : NamedRoutine} (h : d.unmasked = .ok n) :
    ∃ names, Named names n ∧ n.routine.graph.varnodes.size = d.varnodes.length := by
  obtain ⟨spaces, hspaces, h⟩ := bind_eq_ok h
  obtain ⟨stack, hstack, h⟩ := bind_eq_ok h
  obtain ⟨types, htypes, h⟩ := bind_eq_ok h
  obtain ⟨symbols, hsymbols, h⟩ := bind_eq_ok h
  obtain ⟨values, hvalues, h⟩ := bind_eq_ok h
  obtain ⟨ops, hops, h⟩ := bind_eq_ok h
  obtain ⟨recommended, hrecommended, h⟩ := bind_eq_ok h
  obtain ⟨inherited, hinherited, h⟩ := bind_eq_ok h
  obtain ⟨prototyped, hprototyped, hok⟩ := bind_eq_ok h
  cases hok
  have hstack := lt_of_findSpace hstack
  have hcode : spaces.dataSpace?.getD stack < spaces.size := by
    cases hdata : spaces.dataSpace? with
    | none => exact hstack
    | some id => exact (Array.findIdx?_eq_some_iff_getElem.mp hdata).1
  have hbounded : types.Bounded spaces.size :=
    foldlM_keeps (fun _ _ _ ht hstep => ht.addType hstep)
      ⟨⟨TypeTable.wellFormed_empty _, by simp [TypeExpr.Names.In]⟩, .empty _ _,
        UInt32.toNat_lt d.pointerSize, hstack⟩ htypes
  obtain ⟨hsymbols, hempty⟩ := keeps_extent (fun _ _ _ hr hstep => Grounded.addSymbol hr hstep)
    (grounded_start hspaces hstack hbounded) hsymbols
  obtain ⟨hvalues, hsame, hsize⟩ :=
    Named.addVarnodes ⟨hsymbols, fun x hx => by cases hx⟩ hvalues
  obtain ⟨hops, hextent⟩ := hvalues.addOps (by rw [hsame, hempty.spaces]; exact hcode) hops
  obtain ⟨hrecommended, hextent'⟩ := keeps_extent
    (fun _ _ _ hr hstep => Grounded.addRecommendation hr hstep) hops.toGrounded hrecommended
  obtain ⟨hinherited, hextent''⟩ := keeps_extent
    (fun _ _ _ hr hstep => Grounded.addHeritage hr hstep) hrecommended hinherited
  obtain ⟨hprototyped, hlast⟩ := hinherited.setPrototype hprototyped
  have hkept := (hextent'.trans hextent'').trans hlast
  refine ⟨types.names, ⟨hprototyped, fun x hx => ?_⟩, ?_⟩
  · rw [hkept.values]
    exact hops.values x hx
  · rw [hkept.values, hextent.values, hsize, hempty.values]
    exact Nat.zero_add _

/-- Everything that the function of an accepted description refers to exists. -/
theorem named_build {d : Description} {n : NamedRoutine} (h : d.build = .ok n) :
    ∃ names, Named names n := by
  obtain ⟨parts, hparts, rfl⟩ := build_eq_ok h
  obtain ⟨names, hnamed, -⟩ := named_unmasked hparts
  refine ⟨names, hnamed.toGrounded.installMasks d, fun x hx => ?_⟩
  exact (d.samePlaces_installMasks parts.routine.graph).size ▸ hnamed.values x hx

/-- The function that an accepted description describes is well-formed. -/
theorem wellFormed_build {d : Description} {n : NamedRoutine} (h : d.build = .ok n) :
    n.routine.WellFormed := by
  obtain ⟨names, hnamed⟩ := named_build h
  exact hnamed.wellFormed

/-- In the function that an accepted description describes, no op writes a constant, and location
order states the sizes of the values. -/
theorem placed_build {d : Description} {n : NamedRoutine} (h : d.build = .ok n) :
    n.routine.graph.Placed := by
  obtain ⟨names, hnamed⟩ := named_build h
  exact hnamed.placed

end Description

end TypeRecovery
