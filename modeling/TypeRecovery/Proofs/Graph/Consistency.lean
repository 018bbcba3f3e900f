import Mathlib.Data.List.Nodup
import TypeRecovery.Proofs.Graph.References

/-!
# Consistent graphs

A graph says several times how values and ops hang together: an op lists its operands and its
result, a value lists its readers and names its definition, and location order lists the values once
more. Adding a value or an op keeps all of these in agreement. Readers stay in the order of the ops,
because each op is listed when it is added, and after all others.
-/

namespace TypeRecovery

namespace Graph

variable {g g' : Graph} {v o : Nat}

/-! ## Order -/

/-- Readers are listed in order, what comes in from outside is not written, and no value has two
places. -/
structure Ordered (g : Graph) : Prop where
  /-- The readers of a value are in the order of the ops, each of them once. -/
  readers : ∀ v, (g.varnode v).readers.Pairwise (· < ·)
  /-- No op writes an input. -/
  inputs : ∀ v, (g.varnode v).input = true → (g.varnode v).definition = none
  /-- Location order names no value twice. -/
  once : g.byLocation.Nodup

/-- A change that keeps the links of a graph and marks no written value as an input. -/
theorem SameLinks.ordered (h : g.SameLinks g') (hg : g.Ordered)
    (hinputs : ∀ v, (g'.varnode v).input = true →
      (g.varnode v).input = true ∨ (g.varnode v).definition = none) : g'.Ordered where
  readers v := by
    rw [h.readers]
    exact hg.readers v
  inputs v hv := by
    rw [h.definition]
    exact (hinputs v hv).elim (hg.inputs v) id
  once := by
    rw [byLocation, h.locations]
    exact hg.once

/-- A graph without values is ordered. -/
theorem ordered_empty (hvarnodes : g.varnodes = #[]) (hlocations : g.locations = []) :
    g.Ordered := by
  have hvarnode (v : Nat) : g.varnode v = default := by simp [varnode, hvarnodes]
  refine ⟨fun v => ?_, fun v _ => ?_, ?_⟩
  · rw [hvarnode]
    exact .nil
  · rw [hvarnode]
    rfl
  · rw [byLocation, hlocations]
    exact .nil

/-- Only ops, values and locations matter to the order. -/
theorem Ordered.of_parts (hg : g.Ordered) (hops : g'.ops = g.ops)
    (hvarnodes : g'.varnodes = g.varnodes) (hlocations : g'.locations = g.locations) :
    g'.Ordered := by
  refine (SameLinks.of_parts hops hvarnodes hlocations).ordered hg fun v hv => Or.inl ?_
  rwa [varnode, hvarnodes] at hv

/-- A change of one value that keeps its links and whether it is an input. -/
theorem Ordered.modifyVarnode (hg : g.Ordered) (v : Nat) {f : Varnode → Varnode}
    (hreaders : ∀ node, (f node).readers = node.readers)
    (hdefinition : ∀ node, (f node).definition = node.definition)
    (hinput : ∀ node, (f node).input = node.input) : (g.modifyVarnode v f).Ordered where
  readers w := by
    rw [g.varnode_modifyVarnode_frame Varnode.readers hreaders]
    exact hg.readers w
  inputs w := by
    rw [g.varnode_modifyVarnode_frame Varnode.input hinput,
      g.varnode_modifyVarnode_frame Varnode.definition hdefinition]
    exact hg.inputs w
  once := hg.once

/-- Setting a mask keeps a graph ordered. -/
theorem Ordered.setMask (hg : g.Ordered) (v : Nat) (mask : UInt64) : (g.setMask v mask).Ordered :=
  hg.modifyVarnode v (fun _ => rfl) (fun _ => rfl) fun _ => rfl

/-- Binding a symbol keeps a graph ordered. -/
theorem Ordered.bindSymbol (hg : g.Ordered) (v : Nat) (entry : SymbolEntry) :
    (g.bindSymbol v entry).Ordered := by
  have hbound := hg.modifyVarnode v
    (f := fun node => { node with entry := some g.entries.size })
    (fun _ => rfl) (fun _ => rfl) fun _ => rfl
  exact hbound.of_parts rfl rfl rfl

/-- The base register comes in from outside, so it must not be written. -/
theorem Ordered.setSpaceBase (hg : g.Ordered) (hv : (g.varnode v).definition = none) :
    (g.setSpaceBase v).Ordered := by
  refine (g.relabels_setSpaceBase v).ordered hg fun w hw => ?_
  by_cases hwv : w = v
  · rw [hwv]
    exact Or.inr hv
  · have hsame : (g.setSpaceBase v).varnode w = g.varnode w := by
      change (g.modifyVarnode v _).varnode w = _
      rw [varnode_modifyVarnode, if_neg fun h => hwv h.1]
    rw [hsame] at hw
    exact Or.inl hw

/-- Computing masks keeps a graph ordered. -/
theorem Ordered.computeMasks (hg : g.Ordered) : g.computeMasks.Ordered := by
  refine g.relabels_computeMasks.ordered hg fun v hv => Or.inl ?_
  rcases g.varnode_computeMasks v with h | h <;> rw [h] at hv <;> exact hv

/-- Inserting a location adds it and permutes the others. -/
theorem Location.insert_perm (x : Location) (l : List Location) : (x.insert l).Perm (x :: l) := by
  induction l with
  | nil => exact .refl _
  | cons y rest ih =>
    rw [Location.insert]
    split
    · exact .refl _
    · exact (ih.cons y).trans (.swap x y rest)

/-- A new value is neither read nor written yet, and has one place. -/
theorem Ordered.addVarnode (hg : g.Ordered) (hlocated : ∀ v ∈ g.byLocation, v < g.varnodes.size)
    {node : Varnode} (hreaders : node.readers = []) (hdefinition : node.definition = none) :
    (g.addVarnode node).Ordered where
  readers v := by
    rw [varnode_addVarnode]
    split
    · rw [hreaders]
      exact .nil
    · exact hg.readers v
  inputs v := by
    rw [varnode_addVarnode]
    split
    · exact fun _ => hdefinition
    · exact hg.inputs v
  once := by
    have hperm : (g.addVarnode node).byLocation.Perm (g.varnodes.size :: g.byLocation) :=
      (Location.insert_perm _ g.locations).map Location.id
    rw [hperm.nodup_iff, List.nodup_cons]
    exact ⟨fun hmem => Nat.lt_irrefl _ (hlocated _ hmem), hg.once⟩

/-- Readers are in order, and the last of them is at most a given op. -/
def ReadUpTo (o : Nat) (g : Graph) : Prop :=
  ∀ v, (g.varnode v).readers.Pairwise (· < ·) ∧ ∀ o' ∈ (g.varnode v).readers, o' ≤ o

/-- The latest op is listed last. -/
theorem ReadUpTo.addReader (hg : g.ReadUpTo o) (v : Nat) : (g.addReader o v).ReadUpTo o := by
  intro w
  rw [Graph.addReader, varnode_modifyVarnode]
  split
  · obtain ⟨hsorted, hle⟩ := hg v
    split
    · exact ⟨hsorted, hle⟩
    · rename_i hnew
      constructor
      · rw [List.pairwise_append]
        refine ⟨hsorted, List.pairwise_singleton _ _, fun o' ho' x hx => ?_⟩
        rw [List.mem_singleton.mp hx]
        refine Nat.lt_of_le_of_ne (hle o' ho') ?_
        rintro rfl
        exact hnew ho'
      · intro o' ho'
        rcases List.mem_append.mp ho' with hold | hlast
        · exact hle o' hold
        · exact Nat.le_of_eq (List.mem_singleton.mp hlast)
  · exact hg w

/-- The readers come first, and noting the result leaves them alone. -/
theorem varnode_linkOp {α : Sort _} (get : Varnode → α)
    (hdefinition : ∀ (node : Varnode) definition, get { node with definition } = get node)
    (g : Graph) (op : Op) (v : Nat) : get ((g.linkOp op).varnode v) =
      get ((op.inputs.foldl (fun g' v => g'.addReader g.ops.size v) g).varnode v) := by
  generalize hread : op.inputs.foldl (fun g' v => g'.addReader g.ops.size v) g = read
  have hwritten : get ((op.output.elim read fun out => read.setDefinition g.ops.size out).varnode v)
      = get (read.varnode v) := by
    cases op.output with
    | none => rfl
    | some out =>
      exact read.varnode_modifyVarnode_frame get (fun node => hdefinition node _) out v
  rw [← hwritten, ← hread]
  rfl

/-- A new op changes only the links of a value. -/
theorem varnode_linkOp_frame {α : Sort _} (get : Varnode → α)
    (hdefinition : ∀ (node : Varnode) definition, get { node with definition } = get node)
    (hreaders : ∀ (node : Varnode) readers, get { node with readers } = get node)
    (g : Graph) (op : Op) (v : Nat) : get ((g.linkOp op).varnode v) = get (g.varnode v) := by
  rw [varnode_linkOp get hdefinition]
  exact List.foldlRecOn (motive := fun x : Graph => get (x.varnode v) = get (g.varnode v))
    op.inputs _ rfl
    fun x hx w _ => (x.varnode_addReader_frame get hreaders _ w v).trans hx

/-- A new op leaves alone which values are inputs. -/
theorem input_linkOp (g : Graph) (op : Op) (v : Nat) :
    ((g.linkOp op).varnode v).input = (g.varnode v).input :=
  varnode_linkOp_frame Varnode.input (fun _ _ => rfl) (fun _ _ => rfl) g op v

/-- Linking an op as the next one keeps the readers in order. -/
theorem ReadUpTo.linkOp (hg : g.ReadUpTo g.ops.size) (op : Op) :
    (g.linkOp op).ReadUpTo g.ops.size := by
  intro v
  rw [varnode_linkOp Varnode.readers fun _ _ => rfl]
  exact List.foldlRecOn (motive := fun x : Graph => x.ReadUpTo g.ops.size) op.inputs _ hg
    (fun x hx v _ => hx.addReader v) v

/-- An op that is added comes after the readers there are, and writes no input. -/
theorem Ordered.linkOp (hg : g.Ordered) (hwell : g.WellFormed) {op : Op} (h : g.Accepts op) :
    (g.linkOp op).Ordered := by
  refine ⟨fun v => ?_, fun v hv => ?_, ?_⟩
  · refine (ReadUpTo.linkOp (fun w => ⟨hg.readers w, fun o' ho' => ?_⟩) op v).1
    by_contra hlate
    have hin := (hwell.reads o' w).mpr ho'
    rw [op_of_le (Nat.le_of_not_le hlate)] at hin
    cases hin
  · rw [input_linkOp] at hv
    have hother : op.output ≠ some v := by
      intro hout
      rw [h.input v hout] at hv
      cases hv
    rw [h.linked.definition, if_neg hother]
    exact hg.inputs v hv
  · rw [byLocation, h.linked.locations]
    exact hg.once

/-! ## Consistency -/

/-- What is said more than once about the values and ops of a graph is said the same way. -/
structure Consistent (g : Graph) : Prop where
  /-- A value names an op as its definition exactly when it is the result of the op. -/
  definitions : ∀ v o, (g.varnode v).definition = some o ↔ (g.op o).output = some v
  /-- No two ops have one result. -/
  results : ∀ o o' v, (g.op o).output = some v → (g.op o').output = some v → o = o'
  /-- A value lists an op among its readers exactly when it is an operand of the op. -/
  readers : ∀ v o, o ∈ (g.varnode v).readers ↔ v ∈ (g.op o).inputs
  /-- The readers of a value are in the order of the ops, each of them once. -/
  ordered : ∀ v, (g.varnode v).readers.Pairwise (· < ·)
  /-- No op writes a constant or an input. -/
  unwritten : ∀ v, (g.varnode v).constant = true ∨ (g.varnode v).input = true →
    (g.varnode v).definition = none
  /-- Location order lists the place of every value, each of them once. -/
  located : g.locations.Perm
    ((List.range g.varnodes.size).map fun v => (g.varnode v).location v)

/-- A graph that was put together value by value and op by op. -/
structure Assembled (g : Graph) : Prop where
  /-- Values and ops agree on their links. -/
  wellFormed : g.WellFormed
  /-- Constants are not written. -/
  placed : g.Placed
  /-- Location order states where the values are. -/
  indexed : g.Indexed
  /-- Readers are in order. -/
  ordered : g.Ordered

/-- A value that nothing reads or writes is added to an assembled graph. -/
theorem Assembled.addVarnode (hg : g.Assembled) {node : Varnode} (hreaders : node.readers = [])
    (hdefinition : node.definition = none) : (g.addVarnode node).Assembled := by
  have hlocated : ∀ v ∈ g.byLocation, v < g.varnodes.size :=
    fun v hv => (hg.wellFormed.located v).mp hv
  exact ⟨hg.wellFormed.addVarnode hreaders hdefinition,
    hg.placed.addVarnode hg.wellFormed hdefinition, hg.indexed.addVarnode hlocated node,
    hg.ordered.addVarnode hlocated hreaders hdefinition⟩

/-- An acceptable op is linked into an assembled graph. -/
theorem Assembled.linkOp (hg : g.Assembled) {op : Op} (h : g.Accepts op) :
    (g.linkOp op).Assembled :=
  ⟨h.linked.wellFormed hg.wellFormed h.unwritten, h.linked.placed hg.placed h.constant,
    (g.samePlaces_linkOp op).indexed hg.indexed, hg.ordered.linkOp hg.wellFormed h⟩

/-- Location order is a permutation of the places of the values. -/
theorem Assembled.perm_locations (hg : g.Assembled) : g.locations.Perm
    ((List.range g.varnodes.size).map fun v => (g.varnode v).location v) := by
  have hvalues : g.byLocation.Perm (List.range g.varnodes.size) := by
    rw [List.perm_ext_iff_of_nodup hg.ordered.once List.nodup_range]
    intro v
    rw [List.mem_range]
    exact hg.wellFormed.located v
  have hplaces : g.byLocation.map (fun v => (g.varnode v).location v) = g.locations := by
    rw [byLocation, List.map_map]
    conv_rhs => rw [← List.map_id g.locations]
    exact List.map_congr_left fun l hl => (hg.indexed l hl).symm
  rw [← hplaces]
  exact hvalues.map _

/-- An assembled graph is consistent. -/
theorem Assembled.consistent (hg : g.Assembled) : g.Consistent where
  definitions v o := (hg.wellFormed.writes o v).symm
  results o o' v ho ho' := by
    have hdefinition := (hg.wellFormed.writes o v).mp ho
    rw [(hg.wellFormed.writes o' v).mp ho'] at hdefinition
    exact (Option.some.inj hdefinition).symm
  readers v o := (hg.wellFormed.reads o v).symm
  ordered := hg.ordered.readers
  unwritten v hv := hv.elim (hg.placed.constants v) (hg.ordered.inputs v)
  located := hg.perm_locations

end Graph

end TypeRecovery
