import TypeRecovery.Proofs.Graph.Links
import TypeRecovery.Proofs.Graph.Range

/-!
# References of a graph

A graph refers to address spaces, values, symbols and their storage by position. Every position that
it holds is the position of something, its location order states where its values are, and the sizes
of its values fit 32 bits. One lemma for each change of a graph shows that it stays that way.
-/

namespace TypeRecovery

/-- The number of spaces in a table. -/
def SpaceTable.size (t : SpaceTable) : Nat := t.spaces.size

/-- Where the location order puts a value. -/
def Varnode.location (node : Varnode) (v : VarnodeId) : Location :=
  ⟨node.address.space, node.address.offset, node.size, v⟩

namespace Graph

variable {g g' : Graph} {v : Nat}

/-- The location order states the address and the size of every value it holds. -/
def Indexed (g : Graph) : Prop := ∀ l ∈ g.locations, l = (g.varnode l.id).location l.id

instance (g : Graph) : Decidable g.Indexed :=
  inferInstanceAs (Decidable (∀ l ∈ g.locations, l = (g.varnode l.id).location l.id))

/-- An input that is found by address and size has them. -/
theorem Indexed.findInput? (hg : g.Indexed) {size : Nat} {a : Address}
    (h : g.findInput? size a = some v) :
    (g.varnode v).input = true ∧ (g.varnode v).address = a ∧ (g.varnode v).size = size := by
  obtain ⟨hinput, hsize, l, hl, hspace, hoffset, rfl⟩ := findInput?_spec h
  have hplace := hg l hl
  rw [hplace] at hspace hoffset
  refine ⟨hinput, ?_, hsize⟩
  cases a
  cases haddress : (g.varnode l.id).address
  simp only [Varnode.location, haddress] at hspace hoffset
  rw [hspace, hoffset]

/-- The values found in a range of a space are those that start in it. -/
theorem Indexed.mem_valuesInRange (hi : g.Indexed)
    (hlocated : ∀ v, v ∈ g.byLocation ↔ v < g.varnodes.size) {space : SpaceId} {start : UInt64}
    {stop : Option UInt64} :
    v ∈ g.valuesInRange space start stop ↔
      v < g.varnodes.size ∧ (g.varnode v).address.space = space ∧
        start ≤ (g.varnode v).address.offset ∧
        stop.all ((g.varnode v).address.offset < ·) = true := by
  have hstops (offset : UInt64) :
      stop.all (offset < ·) = true ↔ ∀ e ∈ stop, offset < e := by
    cases stop <;> simp
  rw [Graph.mem_valuesInRange, hstops]
  constructor
  · rintro ⟨l, hmem, ⟨hspace, hstart, hstop⟩, rfl⟩
    have hplace := hi l hmem
    rw [hplace] at hspace hstart hstop
    exact ⟨(hlocated l.id).mp (List.mem_map_of_mem hmem), hspace, hstart, hstop⟩
  · rintro ⟨hv, hspace, hstart, hstop⟩
    obtain ⟨l, hmem, rfl⟩ := List.mem_map.mp ((hlocated v).mpr hv)
    have hplace := hi l hmem
    exact ⟨(g.varnode l.id).location l.id, hplace ▸ hmem, ⟨hspace, hstart, hstop⟩, rfl⟩

/-- A new value is put where it is, and the others stay where they are. -/
theorem Indexed.addVarnode (hg : g.Indexed) (hlocated : ∀ v ∈ g.byLocation, v < g.varnodes.size)
    (node : Varnode) : (g.addVarnode node).Indexed := by
  intro l hl
  rcases Location.mem_insert.mp hl with rfl | hold
  · rw [varnode_addVarnode, if_pos rfl]
    rfl
  · have hlt := hlocated l.id (List.mem_map_of_mem hold)
    rw [varnode_addVarnode, if_neg (Nat.ne_of_lt hlt)]
    exact hg l hold

/-- Every position that a graph holds is the position of something, and sizes fit 32 bits. -/
structure Intact (g : Graph) : Prop where
  /-- The frame has a space. -/
  stack : g.stack < g.spaces.size
  /-- The units of spaces fit 32 bits. -/
  units : ∀ x ∈ g.spaces.spaces, x.wordSize < UInt32.size
  /-- Values are in spaces. -/
  valueSpaces : ∀ v < g.varnodes.size, (g.varnode v).address.space < g.spaces.size
  /-- The sizes of values fit 32 bits. -/
  valueSizes : ∀ v < g.varnodes.size, (g.varnode v).size < UInt32.size
  /-- Values are bound to storage that exists. -/
  valueEntries : ∀ v < g.varnodes.size, ∀ e ∈ (g.varnode v).entry, e < g.entries.size
  /-- Ops are in spaces. -/
  opSpaces : ∀ op ∈ g.ops, op.address.space < g.spaces.size
  /-- Location order states where the values are. -/
  indexed : g.Indexed
  /-- Storage is for symbols that exist. -/
  entrySymbols : ∀ e ∈ g.entries, e.symbol < g.symbols.size
  /-- Storage is in spaces. -/
  entrySpaces : ∀ e ∈ g.entries, e.address.space < g.spaces.size
  /-- Recommendations are for places in spaces. -/
  recommended : ∀ x ∈ g.recommendations, x.address.space < g.spaces.size
  /-- Heritage is of spaces. -/
  heritage : ∀ x ∈ g.heritage, x.1 < g.spaces.size
  /-- The base register is a value. -/
  spaceBase : ∀ v ∈ g.spaceBase, v < g.varnodes.size

/-! ## Changes of single values -/

/-- The second graph has the values of the first at the same places, and the same spaces and
symbols. -/
structure SamePlaces (g g' : Graph) : Prop where
  /-- The spaces are the same. -/
  spaces : g'.spaces = g.spaces
  /-- The frame is the same. -/
  stack : g'.stack = g.stack
  /-- The number of values is the same. -/
  size : g'.varnodes.size = g.varnodes.size
  /-- Every value has its address. -/
  address : ∀ v, (g'.varnode v).address = (g.varnode v).address
  /-- Every value has its size. -/
  sizes : ∀ v, (g'.varnode v).size = (g.varnode v).size
  /-- Every value has its storage. -/
  entry : ∀ v, (g'.varnode v).entry = (g.varnode v).entry
  /-- The location order is the same. -/
  locations : g'.locations = g.locations
  /-- The symbols are the same. -/
  symbols : g'.symbols = g.symbols
  /-- Their storage is the same. -/
  entries : g'.entries = g.entries
  /-- The recommendations are the same. -/
  recommendations : g'.recommendations = g.recommendations
  /-- The heritage is the same. -/
  heritage : g'.heritage = g.heritage
  /-- The base register is the same. -/
  spaceBase : g'.spaceBase = g.spaceBase

/-- A graph has its own places. -/
theorem SamePlaces.refl (g : Graph) : g.SamePlaces g :=
  ⟨rfl, rfl, rfl, fun _ => rfl, fun _ => rfl, fun _ => rfl, rfl, rfl, rfl, rfl, rfl, rfl⟩

/-- Places stay the same through several changes. -/
theorem SamePlaces.trans {g'' : Graph} (h : g.SamePlaces g') (h' : g'.SamePlaces g'') :
    g.SamePlaces g'' where
  spaces := h'.spaces.trans h.spaces
  stack := h'.stack.trans h.stack
  size := h'.size.trans h.size
  address v := (h'.address v).trans (h.address v)
  sizes v := (h'.sizes v).trans (h.sizes v)
  entry v := (h'.entry v).trans (h.entry v)
  locations := h'.locations.trans h.locations
  symbols := h'.symbols.trans h.symbols
  entries := h'.entries.trans h.entries
  recommendations := h'.recommendations.trans h.recommendations
  heritage := h'.heritage.trans h.heritage
  spaceBase := h'.spaceBase.trans h.spaceBase

/-- A graph with the same places is indexed alike. -/
theorem SamePlaces.indexed (h : g.SamePlaces g') (hg : g.Indexed) : g'.Indexed := by
  intro l hl
  rw [Varnode.location, h.address, h.sizes]
  exact hg l (h.locations ▸ hl)

/-- Values that stay at their places keep a graph intact, whatever ops are added in its spaces. -/
theorem SamePlaces.intact (h : g.SamePlaces g') (hg : g.Intact)
    (hops : ∀ op ∈ g'.ops, op.address.space < g.spaces.size) : g'.Intact := by
  have hindexed := h.indexed hg.indexed
  obtain ⟨hspaces, hstack, hsize, haddress, hsizes, hentry, -, hsymbols, hentries,
    hrecommendations, hheritage, hspaceBase⟩ := h
  refine ⟨?_, ?_, fun v hv => ?_, fun v hv => ?_, fun v hv => ?_, ?_, hindexed, ?_, ?_, ?_, ?_, ?_⟩
  · rw [hspaces, hstack]
    exact hg.stack
  · rw [hspaces]
    exact hg.units
  · rw [hspaces, haddress]
    exact hg.valueSpaces v (hsize ▸ hv)
  · rw [hsizes]
    exact hg.valueSizes v (hsize ▸ hv)
  · rw [hentry, hentries]
    exact hg.valueEntries v (hsize ▸ hv)
  · rw [hspaces]
    exact hops
  · rw [hentries, hsymbols]
    exact hg.entrySymbols
  · rw [hentries, hspaces]
    exact hg.entrySpaces
  · rw [hrecommendations, hspaces]
    exact hg.recommended
  · rw [hheritage, hspaces]
    exact hg.heritage
  · rw [hspaceBase, hsize]
    exact hg.spaceBase

/-- A change of one value that leaves its place and its storage alone. -/
theorem samePlaces_modifyVarnode (g : Graph) (v : Nat) {f : Varnode → Varnode}
    (haddress : ∀ node, (f node).address = node.address)
    (hsizes : ∀ node, (f node).size = node.size)
    (hentry : ∀ node, (f node).entry = node.entry) : g.SamePlaces (g.modifyVarnode v f) :=
  ⟨rfl, rfl, by simp [modifyVarnode], g.varnode_modifyVarnode_frame _ haddress v,
    g.varnode_modifyVarnode_frame _ hsizes v, g.varnode_modifyVarnode_frame _ hentry v, rfl, rfl,
    rfl, rfl, rfl, rfl⟩

/-- Setting a mask moves nothing. -/
theorem samePlaces_setMask (g : Graph) (v : Nat) (mask : UInt64) :
    g.SamePlaces (g.setMask v mask) :=
  g.samePlaces_modifyVarnode v (fun _ => rfl) (fun _ => rfl) fun _ => rfl

/-- Computing masks moves nothing. -/
theorem samePlaces_computeMasks (g : Graph) : g.SamePlaces g.computeMasks := by
  refine ⟨rfl, rfl, by simp [computeMasks], fun v => ?_, fun v => ?_, fun v => ?_, rfl, rfl, rfl,
    rfl, rfl, rfl⟩ <;> rcases g.varnode_computeMasks v with h | h <;> rw [h]

private theorem samePlaces_addReader (g : Graph) (o v : Nat) : g.SamePlaces (g.addReader o v) := by
  apply samePlaces_modifyVarnode <;> intro node <;> split <;> rfl

/-- Linking an op moves nothing. -/
theorem samePlaces_linkOp (g : Graph) (op : Op) : g.SamePlaces (g.linkOp op) := by
  have hread : g.SamePlaces (op.inputs.foldl (fun g' v => g'.addReader g.ops.size v) g) :=
    List.foldlRecOn (motive := fun x : Graph => g.SamePlaces x) op.inputs _ (.refl g)
      fun x hx v _ => hx.trans (x.samePlaces_addReader _ v)
  rw [linkOp]
  generalize op.inputs.foldl (fun g' v => g'.addReader g.ops.size v) g = read at hread ⊢
  have hwritten : g.SamePlaces
      (op.output.elim read fun out => read.setDefinition g.ops.size out) := by
    cases op.output with
    | none => exact hread
    | some out =>
      exact hread.trans
        (read.samePlaces_modifyVarnode out (fun _ => rfl) (fun _ => rfl) fun _ => rfl)
  exact ⟨hwritten.spaces, hwritten.stack, hwritten.size, hwritten.address, hwritten.sizes,
    hwritten.entry, hwritten.locations, hwritten.symbols, hwritten.entries,
    hwritten.recommendations, hwritten.heritage, hwritten.spaceBase⟩

/-! ## Growing graphs -/

/-- A change of a value that keeps its place and its symbol keeps a graph intact. -/
theorem Intact.modifyVarnode (hg : g.Intact) (v : Nat) {f : Varnode → Varnode}
    (haddress : ∀ node, (f node).address = node.address)
    (hsizes : ∀ node, (f node).size = node.size)
    (hentry : ∀ node, (f node).entry = node.entry) : (g.modifyVarnode v f).Intact :=
  (g.samePlaces_modifyVarnode v haddress hsizes hentry).intact hg hg.opSpaces

/-- Linking an acceptable op keeps a graph intact. -/
theorem Intact.linkOp (hg : g.Intact) {op : Op} (hop : op.address.space < g.spaces.size)
    (h : g.Accepts op) : (g.linkOp op).Intact := by
  refine (g.samePlaces_linkOp op).intact hg fun x hx => ?_
  rw [h.linked.ops] at hx
  rcases Array.mem_push.mp hx with hold | rfl
  · exact hg.opSpaces x hold
  · exact hop

/-- A new value in a space, of a size that fits and without storage. -/
theorem Intact.addVarnode (hg : g.Intact) (hlocated : ∀ v ∈ g.byLocation, v < g.varnodes.size)
    {node : Varnode} (hspace : node.address.space < g.spaces.size)
    (hsize : node.size < UInt32.size) (hentry : node.entry = none) :
    (g.addVarnode node).Intact := by
  have hcount : (g.addVarnode node).varnodes.size = g.varnodes.size + 1 := by
    simp [Graph.addVarnode]
  -- what holds of the values before and of the new one holds of all
  have hall {P : Varnode → Prop} (hold : ∀ v < g.varnodes.size, P (g.varnode v)) (hnew : P node) :
      ∀ v < (g.addVarnode node).varnodes.size, P ((g.addVarnode node).varnode v) := by
    intro v hv
    rw [varnode_addVarnode]
    split
    · exact hnew
    · exact hold v (by omega)
  refine ⟨hg.stack, hg.units,
    hall (P := fun x => x.address.space < g.spaces.size) hg.valueSpaces hspace,
    hall (P := fun x => x.size < UInt32.size) hg.valueSizes hsize,
    hall (P := fun x => ∀ e ∈ x.entry, e < g.entries.size) hg.valueEntries (by simp [hentry]),
    hg.opSpaces, hg.indexed.addVarnode hlocated node, hg.entrySymbols, hg.entrySpaces,
    hg.recommended, hg.heritage, fun v hv => ?_⟩
  rw [hcount]
  exact Nat.lt_succ_of_lt (hg.spaceBase v hv)

/-- A value is bound to new storage of a symbol. -/
theorem Intact.bindSymbol (hg : g.Intact) (v : Nat) {entry : SymbolEntry}
    (hsymbol : entry.symbol < g.symbols.size) (hspace : entry.address.space < g.spaces.size) :
    (g.bindSymbol v entry).Intact := by
  have hsize : (g.bindSymbol v entry).varnodes.size = g.varnodes.size := by
    simp [Graph.bindSymbol, Graph.modifyVarnode]
  have hcount : (g.bindSymbol v entry).entries.size = g.entries.size + 1 := by
    simp [Graph.bindSymbol, Graph.modifyVarnode]
  have hvarnode (w : Nat) : (g.bindSymbol v entry).varnode w =
      if w = v ∧ v < g.varnodes.size then { g.varnode v with entry := some g.entries.size }
        else g.varnode w :=
    g.varnode_modifyVarnode v _ w
  have hframe {α : Type} (get : Varnode → α)
      (hget : ∀ (node : Varnode) e, get { node with entry := e } = get node) (w : Nat) :
      get ((g.bindSymbol v entry).varnode w) = get (g.varnode w) :=
    g.varnode_modifyVarnode_frame get (fun node => hget node _) v w
  refine ⟨hg.stack, hg.units, fun w hw => ?_, fun w hw => ?_, fun w hw e he => ?_, hg.opSpaces,
    fun l hl => ?_, fun x hx => ?_, fun x hx => ?_, hg.recommended, hg.heritage, fun w hw => ?_⟩
  · rw [hframe Varnode.address fun _ _ => rfl]
    exact hg.valueSpaces w (hsize ▸ hw)
  · rw [hframe Varnode.size fun _ _ => rfl]
    exact hg.valueSizes w (hsize ▸ hw)
  · rw [hcount]
    rw [hvarnode] at he
    split at he
    · cases he
      exact Nat.lt_succ_self _
    · exact Nat.lt_succ_of_lt (hg.valueEntries w (hsize ▸ hw) e he)
  · rw [hframe (fun node => node.location l.id) fun _ _ => rfl]
    exact hg.indexed l hl
  · rcases Array.mem_push.mp hx with hold | rfl
    · exact hg.entrySymbols x hold
    · exact hsymbol
  · rcases Array.mem_push.mp hx with hold | rfl
    · exact hg.entrySpaces x hold
    · exact hspace
  · rw [hsize]
    exact hg.spaceBase w hw

/-- Marking a base register keeps a graph intact. -/
theorem Intact.setSpaceBase (hg : g.Intact) (hv : v < g.varnodes.size) :
    (g.setSpaceBase v).Intact := by
  have hflags := hg.modifyVarnode v
    (f := fun node => { node with spaceBase := true, input := true })
    (fun _ => rfl) (fun _ => rfl) fun _ => rfl
  refine ⟨hflags.stack, hflags.units, hflags.valueSpaces, hflags.valueSizes, hflags.valueEntries,
    hflags.opSpaces, hflags.indexed, hflags.entrySymbols, hflags.entrySpaces, hflags.recommended,
    hflags.heritage, fun w hw => ?_⟩
  cases hw
  simpa [Graph.setSpaceBase, Graph.modifyVarnode] using hv

/-- Adding a symbol keeps a graph intact. -/
theorem Intact.addSymbol (hg : g.Intact) (s : Symbol) : (g.addSymbol s).Intact :=
  ⟨hg.stack, hg.units, hg.valueSpaces, hg.valueSizes, hg.valueEntries, hg.opSpaces, hg.indexed,
    fun x hx => by simpa [Graph.addSymbol] using Nat.lt_succ_of_lt (hg.entrySymbols x hx),
    hg.entrySpaces, hg.recommended, hg.heritage, hg.spaceBase⟩

/-- Adding a recommendation for a space that exists keeps a graph intact. -/
theorem Intact.addRecommendation (hg : g.Intact) {x : Recommendation}
    (hx : x.address.space < g.spaces.size) : (g.addRecommendation x).Intact := by
  refine ⟨hg.stack, hg.units, hg.valueSpaces, hg.valueSizes, hg.valueEntries, hg.opSpaces,
    hg.indexed, hg.entrySymbols, hg.entrySpaces, fun y hy => ?_, hg.heritage, hg.spaceBase⟩
  rcases List.mem_append.mp hy with hold | hnew
  · exact hg.recommended y hold
  · rw [List.mem_singleton.mp hnew]
    exact hx

/-- Noting heritage passes of a space that exists keeps a graph intact. -/
theorem Intact.setHeritage (hg : g.Intact) {space passes : Nat} (hspace : space < g.spaces.size) :
    (g.setHeritage space passes).Intact := by
  refine ⟨hg.stack, hg.units, hg.valueSpaces, hg.valueSizes, hg.valueEntries, hg.opSpaces,
    hg.indexed, hg.entrySymbols, hg.entrySpaces, hg.recommended, fun x hx => ?_, hg.spaceBase⟩
  rcases List.mem_cons.mp hx with rfl | hold
  · exact hspace
  · exact hg.heritage x hold

/-- The prototype refers to nothing in a graph. -/
theorem Intact.withPrototype (hg : g.Intact) (prototype : Prototype) :
    { g with prototype }.Intact :=
  ⟨hg.stack, hg.units, hg.valueSpaces, hg.valueSizes, hg.valueEntries, hg.opSpaces, hg.indexed,
    hg.entrySymbols, hg.entrySpaces, hg.recommended, hg.heritage, hg.spaceBase⟩

end Graph

end TypeRecovery
