import TypeRecovery.Proofs.Routine

/-!
# Links between values and ops

A value lists the ops that read it and names the op that writes it. Adding a value adds no link,
adding an op adds exactly the links of its operands and of its result, and no other change of a
graph touches a link. So a graph that is built step by step stays well-formed, its constants are
never written, and its location order states the sizes of its values.
-/

namespace TypeRecovery

namespace Graph

variable {g g' : Graph} {v w o : Nat}

/-! ## Changes that touch no link -/

/-- The second graph mentions the same types as the first. -/
structure SameMentions (g g' : Graph) : Prop where
  /-- The symbols are the same. -/
  symbols : g'.symbols = g.symbols
  /-- The recommendations are the same. -/
  recommendations : g'.recommendations = g.recommendations
  /-- The prototype is the same. -/
  prototype : g'.prototype = g.prototype

/-- Mentions stay the same through several changes. -/
theorem SameMentions.trans {g'' : Graph} (h : g.SameMentions g') (h' : g'.SameMentions g'') :
    g.SameMentions g'' :=
  ⟨h'.symbols.trans h.symbols, h'.recommendations.trans h.recommendations,
    h'.prototype.trans h.prototype⟩

/-- A graph with the same mentions mentions the same types. -/
theorem SameMentions.typesIn (h : g.SameMentions g') {t : TypeTable} (ht : g.TypesIn t) :
    g'.TypesIn t := by
  refine ⟨?_, ?_, ?_⟩
  · rw [h.symbols]
    exact ht.symbols
  · rw [h.recommendations]
    exact ht.recommendations
  · rw [h.prototype]
    exact ht.prototype

/-- No op writes a constant, and location order states the sizes of the values. -/
structure Placed (g : Graph) : Prop where
  /-- A constant is written by no op. -/
  constants : ∀ v, (g.varnode v).constant = true → (g.varnode v).definition = none
  /-- A place in location order has the size of its value. -/
  sizes : ∀ l ∈ g.locations, l.size = (g.varnode l.id).size

/-- It is enough to look at the values of the graph and at the locations that are listed. -/
theorem placed_iff : g.Placed ↔
    (∀ v < g.varnodes.size, (g.varnode v).constant = true → (g.varnode v).definition = none) ∧
      ∀ l ∈ g.locations, l.size = (g.varnode l.id).size := by
  refine ⟨fun h => ⟨fun v _ => h.constants v, h.sizes⟩, fun h => ⟨fun v hv => ?_, h.2⟩⟩
  by_cases hlt : v < g.varnodes.size
  · exact h.1 v hlt hv
  · rw [varnode_of_le (Nat.le_of_not_lt hlt)]
    rfl

instance (g : Graph) : Decidable g.Placed := decidable_of_iff' _ placed_iff

/-- The second graph has the ops, the values and the links of the first. -/
structure SameLinks (g g' : Graph) : Prop where
  /-- The ops are the same. -/
  ops : g'.ops = g.ops
  /-- The number of values is the same. -/
  size : g'.varnodes.size = g.varnodes.size
  /-- The location order is the same. -/
  locations : g'.locations = g.locations
  /-- Every value has the same readers. -/
  readers : ∀ v, (g'.varnode v).readers = (g.varnode v).readers
  /-- Every value is written by the same op. -/
  definition : ∀ v, (g'.varnode v).definition = (g.varnode v).definition
  /-- Every value has the same size. -/
  sizes : ∀ v, (g'.varnode v).size = (g.varnode v).size
  /-- The same values are constants. -/
  constants : ∀ v, (g'.varnode v).constant = (g.varnode v).constant

/-- A graph with the same links is well-formed if the other one is. -/
theorem SameLinks.wellFormed (h : g.SameLinks g') (hg : g.WellFormed) : g'.WellFormed := by
  have hop (o : Nat) : g'.op o = g.op o := by simp only [op, h.ops]
  refine ⟨fun o v => ?_, fun o v => ?_, fun v => ?_⟩
  · rw [hop, h.readers]
    exact hg.reads o v
  · rw [hop, h.definition]
    exact hg.writes o v
  · rw [h.size, byLocation, h.locations]
    exact hg.located v

/-- A graph with the same links has its values placed alike. -/
theorem SameLinks.placed (h : g.SameLinks g') (hg : g.Placed) : g'.Placed := by
  refine ⟨fun v hv => ?_, fun l hl => ?_⟩
  · rw [h.definition]
    exact hg.constants v (h.constants v ▸ hv)
  · rw [h.sizes]
    exact hg.sizes l (h.locations ▸ hl)

/-- The second graph differs from the first at most in its base register, in the storage of its
symbols and in the flags and masks of its values. -/
structure Relabels (g g' : Graph) : Prop extends g.SameLinks g' where
  /-- The types that are mentioned are the same. -/
  mentions : g.SameMentions g'

/-- A change beside the values, the ops and the location order. -/
theorem SameLinks.of_parts (hops : g'.ops = g.ops) (hvarnodes : g'.varnodes = g.varnodes)
    (hlocations : g'.locations = g.locations) : g.SameLinks g' := by
  have hvarnode (v : Nat) : g'.varnode v = g.varnode v := by rw [varnode, varnode, hvarnodes]
  exact ⟨hops, by rw [hvarnodes], hlocations, fun v => by rw [hvarnode],
    fun v => by rw [hvarnode], fun v => by rw [hvarnode], fun v => by rw [hvarnode]⟩

/-- No label has to change. -/
theorem Relabels.refl (g : Graph) : g.Relabels g := ⟨.of_parts rfl rfl rfl, ⟨rfl, rfl, rfl⟩⟩

/-- Labels may be changed one after the other. -/
theorem Relabels.trans {g'' : Graph} (h : g.Relabels g') (h' : g'.Relabels g'') :
    g.Relabels g'' where
  ops := h'.ops.trans h.ops
  size := h'.size.trans h.size
  locations := h'.locations.trans h.locations
  readers v := (h'.readers v).trans (h.readers v)
  definition v := (h'.definition v).trans (h.definition v)
  sizes v := (h'.sizes v).trans (h.sizes v)
  constants v := (h'.constants v).trans (h.constants v)
  mentions := h.mentions.trans h'.mentions

/-- A change of one value leaves the others as they are. -/
theorem varnode_modifyVarnode (g : Graph) (v : Nat) (f : Varnode → Varnode) (w : Nat) :
    (g.modifyVarnode v f).varnode w =
      if w = v ∧ v < g.varnodes.size then f (g.varnode v) else g.varnode w := by
  rw [varnode, modifyVarnode, Array.getElem?_modify]
  by_cases hw : v = w
  · subst hw
    by_cases hv : v < g.varnodes.size
    · simp [varnode, hv]
    · simp [varnode, hv]
  · simp [varnode, hw, Ne.symm hw]

/-- What a change of one value leaves alone at the value, it leaves alone everywhere. -/
theorem varnode_modifyVarnode_frame {α : Sort _} (get : Varnode → α) {f : Varnode → Varnode}
    (hf : ∀ node, get (f node) = get node) (g : Graph) (v w : Nat) :
    get ((g.modifyVarnode v f).varnode w) = get (g.varnode w) := by
  rw [varnode_modifyVarnode]
  split
  · rename_i hw
    rw [hf, hw.1]
  · rfl

/-- A change of one value that keeps its links, its size and whether it is a constant. -/
theorem relabels_modifyVarnode (g : Graph) (v : Nat) {f : Varnode → Varnode}
    (hreaders : ∀ node, (f node).readers = node.readers)
    (hdefinition : ∀ node, (f node).definition = node.definition)
    (hsizes : ∀ node, (f node).size = node.size)
    (hconstants : ∀ node, (f node).constant = node.constant) :
    g.Relabels (g.modifyVarnode v f) where
  ops := rfl
  size := by simp [modifyVarnode]
  locations := rfl
  readers := g.varnode_modifyVarnode_frame _ hreaders v
  definition := g.varnode_modifyVarnode_frame _ hdefinition v
  sizes := g.varnode_modifyVarnode_frame _ hsizes v
  constants := g.varnode_modifyVarnode_frame _ hconstants v
  mentions := ⟨rfl, rfl, rfl⟩

/-- Setting a mask only labels the graph. -/
theorem relabels_setMask (g : Graph) (v : Nat) (mask : UInt64) : g.Relabels (g.setMask v mask) :=
  g.relabels_modifyVarnode v (fun _ => rfl) (fun _ => rfl) (fun _ => rfl) fun _ => rfl

/-- Marking the base register only labels the graph. -/
theorem relabels_setSpaceBase (g : Graph) (v : Nat) : g.Relabels (g.setSpaceBase v) := by
  have h : g.Relabels
      (g.modifyVarnode v fun node => { node with spaceBase := true, input := true }) :=
    g.relabels_modifyVarnode v (fun _ => rfl) (fun _ => rfl) (fun _ => rfl) fun _ => rfl
  exact ⟨⟨h.ops, h.size, h.locations, h.readers, h.definition, h.sizes, h.constants⟩,
    ⟨rfl, rfl, rfl⟩⟩

/-- Binding a symbol only labels the graph. -/
theorem relabels_bindSymbol (g : Graph) (v : Nat) (entry : SymbolEntry) :
    g.Relabels (g.bindSymbol v entry) := by
  have h : g.Relabels
      (g.modifyVarnode v fun node => { node with entry := some g.entries.size }) :=
    g.relabels_modifyVarnode v (fun _ => rfl) (fun _ => rfl) (fun _ => rfl) fun _ => rfl
  exact ⟨⟨h.ops, h.size, h.locations, h.readers, h.definition, h.sizes, h.constants⟩,
    ⟨rfl, rfl, rfl⟩⟩

/-- Computing masks changes nothing else of a value. -/
theorem varnode_computeMasks (g : Graph) (v : Nat) : g.computeMasks.varnode v = g.varnode v ∨
    g.computeMasks.varnode v = { g.varnode v with mask := g.masks.get v } := by
  simp only [varnode, computeMasks, Array.getElem?_mapIdx]
  cases g.varnodes[v]? with
  | none => exact Or.inl rfl
  | some node => exact Or.inr rfl

/-- Computing masks only labels the graph. -/
theorem relabels_computeMasks (g : Graph) : g.Relabels g.computeMasks := by
  refine ⟨⟨rfl, by simp [computeMasks], rfl, fun v => ?_, fun v => ?_, fun v => ?_, fun v => ?_⟩,
    ⟨rfl, rfl, rfl⟩⟩ <;> rcases g.varnode_computeMasks v with h | h <;> rw [h]

/-! ## New values -/

/-- Inserting a location adds it to those that are there. -/
theorem Location.mem_insert {x y : Location} {l : List Location} :
    y ∈ x.insert l ↔ y = x ∨ y ∈ l := by
  induction l with
  | nil => simp [Location.insert]
  | cons z rest ih =>
    rw [Location.insert]
    split
    · simp
    · simp only [List.mem_cons, ih]
      exact or_left_comm

/-- A new value comes after the others. -/
theorem varnode_addVarnode (g : Graph) (node : Varnode) (v : Nat) :
    (g.addVarnode node).varnode v = if v = g.varnodes.size then node else g.varnode v := by
  rw [varnode, addVarnode, Array.getElem?_push]
  split
  · rfl
  · rfl

/-- A value that is neither read nor written keeps a graph well-formed. -/
theorem WellFormed.addVarnode (hg : g.WellFormed) {node : Varnode} (hreaders : node.readers = [])
    (hdefinition : node.definition = none) : (g.addVarnode node).WellFormed := by
  have hop (o : Nat) : (g.addVarnode node).op o = g.op o := rfl
  have hnew : g.varnode g.varnodes.size = default := varnode_of_le (Nat.le_refl _)
  refine ⟨fun o v => ?_, fun o v => ?_, fun v => ?_⟩
  · rw [hop, hg.reads, varnode_addVarnode]
    split
    · rename_i hv
      rw [hv, hnew, hreaders]
      rfl
    · rfl
  · rw [hop, hg.writes, varnode_addVarnode]
    split
    · rename_i hv
      rw [hv, hnew, hdefinition]
      rfl
    · rfl
  · have hlocated := hg.located v
    simp only [byLocation, List.mem_map] at hlocated ⊢
    have hsize : (g.addVarnode node).varnodes.size = g.varnodes.size + 1 := by
      simp [Graph.addVarnode]
    rw [hsize, Nat.lt_succ_iff_lt_or_eq, ← hlocated]
    simp only [Graph.addVarnode, Location.mem_insert]
    constructor
    · rintro ⟨l, rfl | hl, rfl⟩
      · exact Or.inr rfl
      · exact Or.inl ⟨l, hl, rfl⟩
    · rintro (⟨l, hl, rfl⟩ | rfl)
      · exact ⟨l, Or.inr hl, rfl⟩
      · exact ⟨_, Or.inl rfl, rfl⟩

/-- A new value that is not written keeps the constants unwritten and the sizes stated. -/
theorem Placed.addVarnode (h : g.Placed) (hg : g.WellFormed) {node : Varnode}
    (hdefinition : node.definition = none) : (g.addVarnode node).Placed := by
  refine ⟨fun v hv => ?_, fun l hl => ?_⟩
  · rw [varnode_addVarnode] at hv ⊢
    split at hv
    · rename_i hnew
      rw [if_pos hnew]
      exact hdefinition
    · rename_i hold
      rw [if_neg hold]
      exact h.constants v hv
  · rcases Location.mem_insert.mp hl with rfl | hold
    · rw [varnode_addVarnode, if_pos rfl]
    · have hlt : l.id < g.varnodes.size := (hg.located l.id).mp (List.mem_map_of_mem hold)
      rw [varnode_addVarnode, if_neg (Nat.ne_of_lt hlt)]
      exact h.sizes l hold

/-! ## New ops -/

/-- A reader is added to its value, and the readers of the other values stay. -/
theorem mem_readers_addReader (g : Graph) (o v o' w : Nat) :
    o' ∈ ((g.addReader o v).varnode w).readers ↔
      o' ∈ (g.varnode w).readers ∨ o' = o ∧ w = v ∧ v < g.varnodes.size := by
  rw [addReader, varnode_modifyVarnode]
  by_cases hw : w = v ∧ v < g.varnodes.size
  · rw [if_pos hw, hw.1]
    by_cases ho : o ∈ (g.varnode v).readers
    · rw [if_pos ho]
      constructor
      · exact Or.inl
      · rintro (h | ⟨rfl, -⟩)
        · exact h
        · exact ho
    · rw [if_neg ho]
      simp [hw.2]
  · rw [if_neg hw]
    simp [hw]

/-- The values of a graph whose operands are listed one by one. -/
structure ReadBy (g : Graph) (o : Nat) (inputs : List Nat) (g' : Graph) : Prop where
  /-- The ops are the same. -/
  ops : g'.ops = g.ops
  /-- The number of values is the same. -/
  size : g'.varnodes.size = g.varnodes.size
  /-- The location order is the same. -/
  locations : g'.locations = g.locations
  /-- The op reads its operands, and the other ops read what they read. -/
  readers : ∀ o' v, o' ∈ (g'.varnode v).readers ↔
    o' ∈ (g.varnode v).readers ∨ o' = o ∧ v ∈ inputs
  /-- Every value is written by the same op. -/
  definition : ∀ v, (g'.varnode v).definition = (g.varnode v).definition
  /-- Every value has the same size. -/
  sizes : ∀ v, (g'.varnode v).size = (g.varnode v).size
  /-- The same values are constants. -/
  constants : ∀ v, (g'.varnode v).constant = (g.varnode v).constant
  /-- The types that are mentioned are the same. -/
  mentions : g.SameMentions g'

/-- A new reader leaves everything but the readers alone. -/
theorem varnode_addReader_frame {α : Sort _} (get : Varnode → α)
    (hget : ∀ (node : Varnode) readers, get { node with readers } = get node)
    (g : Graph) (o v w : Nat) : get ((g.addReader o v).varnode w) = get (g.varnode w) := by
  apply varnode_modifyVarnode_frame
  intro node
  split
  · rfl
  · exact hget node _

/-- Noting an op at its operands makes it their latest reader. -/
theorem readBy_foldl (o : Nat) (inputs : List Nat) (g : Graph)
    (hinputs : ∀ v ∈ inputs, v < g.varnodes.size) :
    g.ReadBy o inputs (inputs.foldl (fun g v => g.addReader o v) g) := by
  induction inputs generalizing g with
  | nil =>
    exact ⟨rfl, rfl, rfl, by simp, fun _ => rfl, fun _ => rfl, fun _ => rfl, ⟨rfl, rfl, rfl⟩⟩
  | cons v rest ih =>
    have hv : v < g.varnodes.size := hinputs v List.mem_cons_self
    have hsize : (g.addReader o v).varnodes.size = g.varnodes.size := by
      simp [addReader, modifyVarnode]
    have hrest := ih (g.addReader o v) fun w hw =>
      hsize ▸ hinputs w (List.mem_cons_of_mem _ hw)
    rw [List.foldl_cons]
    refine ⟨hrest.ops, hrest.size.trans hsize, hrest.locations, fun o' w => ?_,
      fun w => (hrest.definition w).trans (varnode_addReader_frame _ (fun _ _ => rfl) g o v w),
      fun w => (hrest.sizes w).trans (varnode_addReader_frame _ (fun _ _ => rfl) g o v w),
      fun w => (hrest.constants w).trans (varnode_addReader_frame _ (fun _ _ => rfl) g o v w),
      ⟨hrest.mentions.symbols, hrest.mentions.recommendations, hrest.mentions.prototype⟩⟩
    rw [hrest.readers, mem_readers_addReader, List.mem_cons]
    constructor
    · rintro ((h | ⟨ho, hw, -⟩) | ⟨ho, hw⟩)
      · exact Or.inl h
      · exact Or.inr ⟨ho, Or.inl hw⟩
      · exact Or.inr ⟨ho, Or.inr hw⟩
    · rintro (h | ⟨ho, hw | hw⟩)
      · exact Or.inl (Or.inl h)
      · exact Or.inl (Or.inr ⟨ho, hw, hv⟩)
      · exact Or.inr ⟨ho, hw⟩

/-- The second graph is the first with an op added, together with the links of the op. -/
structure Linked (g : Graph) (op : Op) (g' : Graph) : Prop where
  /-- The op comes after the others. -/
  ops : g'.ops = g.ops.push op
  /-- The number of values is the same. -/
  size : g'.varnodes.size = g.varnodes.size
  /-- The location order is the same. -/
  locations : g'.locations = g.locations
  /-- The op reads its operands, and the other ops read what they read. -/
  readers : ∀ o v, o ∈ (g'.varnode v).readers ↔
    o ∈ (g.varnode v).readers ∨ o = g.ops.size ∧ v ∈ op.inputs
  /-- The op writes its result, and the other ops write what they write. -/
  definition : ∀ v, (g'.varnode v).definition =
    if op.output = some v then some g.ops.size else (g.varnode v).definition
  /-- Every value has the same size. -/
  sizes : ∀ v, (g'.varnode v).size = (g.varnode v).size
  /-- The same values are constants. -/
  constants : ∀ v, (g'.varnode v).constant = (g.varnode v).constant
  /-- The types that are mentioned are the same. -/
  mentions : g.SameMentions g'

/-- Linking an op adds it as a reader of its operands and as the writer of its result. -/
theorem linked_linkOp {op : Op} (hinputs : ∀ v ∈ op.inputs, v < g.varnodes.size)
    (houtput : ∀ v ∈ op.output, v < g.varnodes.size) : g.Linked op (g.linkOp op) := by
  have hread := readBy_foldl g.ops.size op.inputs g hinputs
  rw [linkOp]
  generalize op.inputs.foldl (fun g' v => g'.addReader g.ops.size v) g = read at hread ⊢
  cases hout : op.output with
  | none =>
    exact ⟨by rw [← hread.ops]; rfl, hread.size, hread.locations, hread.readers,
      fun v => (hread.definition v).trans (by simp [hout]), hread.sizes, hread.constants,
      ⟨hread.mentions.symbols, hread.mentions.recommendations, hread.mentions.prototype⟩⟩
  | some out =>
    have hlt : out < read.varnodes.size := hread.size ▸ houtput out hout
    have hvarnode (v : Nat) : (read.setDefinition g.ops.size out).varnode v =
        if v = out then { read.varnode out with definition := some g.ops.size }
          else read.varnode v := by
      rw [setDefinition, varnode_modifyVarnode]
      simp only [hlt, and_true]
    have hframe {α : Type} (get : Varnode → α)
        (hget : ∀ (node : Varnode) d, get { node with definition := d } = get node) (v : Nat) :
        get ((read.setDefinition g.ops.size out).varnode v) = get (read.varnode v) :=
      varnode_modifyVarnode_frame get (fun node => hget node _) read out v
    refine ⟨by rw [← hread.ops]; rfl, ?_, hread.locations, fun o v => ?_, fun v => ?_,
      fun v => (hframe _ (fun _ _ => rfl) v).trans (hread.sizes v),
      fun v => (hframe _ (fun _ _ => rfl) v).trans (hread.constants v),
      ⟨hread.mentions.symbols, hread.mentions.recommendations, hread.mentions.prototype⟩⟩
    · rw [← hread.size]
      simp [setDefinition, modifyVarnode]
    · rw [← hread.readers]
      change o ∈ ((read.setDefinition g.ops.size out).varnode v).readers ↔ _
      rw [hvarnode]
      split
      · rename_i hv
        rw [hv]
      · rfl
    · change ((read.setDefinition g.ops.size out).varnode v).definition = _
      rw [hvarnode, ← hread.definition, hout]
      by_cases hv : v = out
      · simp [hv]
      · simp [hv, Ne.symm hv]

/-- An op whose result no other op writes keeps a graph well-formed. -/
theorem Linked.wellFormed {op : Op} (h : g.Linked op g') (hg : g.WellFormed)
    (hfree : ∀ v ∈ op.output, (g.varnode v).definition = none) : g'.WellFormed := by
  have hop (o : Nat) : g'.op o = if o = g.ops.size then op else g.op o := by
    rw [Graph.op, h.ops, Array.getElem?_push]
    split
    · rfl
    · rfl
  have hnew : g.op g.ops.size = default := op_of_le (Nat.le_refl _)
  refine ⟨fun o v => ?_, fun o v => ?_, fun v => ?_⟩
  · rw [hop, h.readers, ← hg.reads]
    by_cases ho : o = g.ops.size
    · have hnone : v ∉ (g.op o).inputs := by
        rw [ho, hnew]
        exact List.not_mem_nil
      simp [ho, ho ▸ hnone]
    · simp [ho]
  · rw [hop, h.definition]
    by_cases ho : o = g.ops.size
    · have hnone : (g.varnode v).definition ≠ some o := by
        rw [Ne, ← hg.writes, ho, hnew]
        exact Option.some_ne_none v ∘ Eq.symm
      by_cases hout : op.output = some v
      · simp [ho, hout]
      · simp [ho, hout, ho ▸ hnone]
    · by_cases hout : op.output = some v
      · have hnone : (g.op o).output ≠ some v := by
          rw [Ne, hg.writes, hfree v hout]
          exact Option.some_ne_none o ∘ Eq.symm
        simp [ho, hout, hnone, Ne.symm ho]
      · simp [ho, hout, hg.writes]
  · rw [h.size, byLocation, h.locations]
    exact hg.located v

/-- An op whose result is no constant keeps the constants unwritten. -/
theorem Linked.placed {op : Op} (h : g.Linked op g') (hg : g.Placed)
    (hfree : ∀ v ∈ op.output, (g.varnode v).constant = false) : g'.Placed := by
  refine ⟨fun v hv => ?_, fun l hl => ?_⟩
  · rw [h.constants] at hv
    have hother : op.output ≠ some v := fun hout => by
      rw [hfree v hout] at hv
      cases hv
    rw [h.definition, if_neg hother]
    exact hg.constants v hv
  · rw [h.sizes]
    exact hg.sizes l (h.locations ▸ hl)

/-- The ops that a graph takes: what they refer to exists, and nothing else gives their results a
value. -/
structure Accepts (g : Graph) (op : Op) : Prop where
  /-- The operands exist. -/
  inputs : ∀ v ∈ op.inputs, v < g.varnodes.size
  /-- The result exists. -/
  output : ∀ v ∈ op.output, v < g.varnodes.size
  /-- No op writes the result. -/
  unwritten : ∀ v ∈ op.output, (g.varnode v).definition = none
  /-- The result is no constant. -/
  constant : ∀ v ∈ op.output, (g.varnode v).constant = false
  /-- The result is no input. -/
  input : ∀ v ∈ op.output, (g.varnode v).input = false

/-- A value is free if no op writes it and it is neither a constant nor an input. -/
theorem isFree_iff : g.isFree v = true ↔ (g.varnode v).definition = none ∧
    (g.varnode v).constant = false ∧ (g.varnode v).input = false := by
  simp [isFree, Varnode.isWritten, and_assoc]

/-- An op is checked for what a graph takes, in the order of its operands and its result. -/
theorem accepts_iff {op : Op} : g.Accepts op ↔
    (op.inputs ++ op.output.toList).find? (fun v => !g.hasVarnode v) = none ∧
      op.output.filter (fun out => !g.isFree out) = none := by
  have hexist : (op.inputs ++ op.output.toList).find? (fun v => !g.hasVarnode v) = none ↔
      (∀ v ∈ op.inputs, v < g.varnodes.size) ∧ ∀ v ∈ op.output, v < g.varnodes.size := by
    simp [List.find?_eq_none, hasVarnode]
  have hfree : op.output.filter (fun out => !g.isFree out) = none ↔
      ∀ v ∈ op.output, g.isFree v = true := by
    simp [Option.filter_eq_none_iff]
  rw [hexist, hfree]
  constructor
  · intro h
    exact ⟨⟨h.inputs, h.output⟩,
      fun v hv => isFree_iff.mpr ⟨h.unwritten v hv, h.constant v hv, h.input v hv⟩⟩
  · rintro ⟨⟨hinputs, houtput⟩, hall⟩
    have hall := fun v hv => isFree_iff.mp (hall v hv)
    exact ⟨hinputs, houtput, fun v hv => (hall v hv).1, fun v hv => (hall v hv).2.1,
      fun v hv => (hall v hv).2.2⟩

/-- An op that a graph takes is added at its end. -/
theorem Accepts.addOp {op : Op} (h : g.Accepts op) :
    g.addOp op = .ok g.ops.size (g.linkOp op) := by
  obtain ⟨hexist, hfree⟩ := accepts_iff.mp h
  rw [Graph.addOp, hexist]
  dsimp only
  rw [hfree]

/-- An op that a graph does not take leaves the graph as it is. -/
theorem addOp_of_not_accepts {op : Op} (h : ¬g.Accepts op) : ∃ e, g.addOp op = .error e g := by
  rw [addOp]
  split
  · exact ⟨_, rfl⟩
  · rename_i hexist
    split
    · exact ⟨_, rfl⟩
    · rename_i hfree
      exact absurd (accepts_iff.mpr ⟨hexist, hfree⟩) h

/-- An op that a graph takes is linked to its operands and its result. -/
theorem Accepts.linked {op : Op} (h : g.Accepts op) : g.Linked op (g.linkOp op) :=
  linked_linkOp h.inputs h.output

end Graph

end TypeRecovery
