import TypeRecovery.Proofs.Description.Assembly
import TypeRecovery.Proofs.Recovery.Round

/-!
# Values by location

A graph keeps a list of where its values are, in the order of spaces, offsets, sizes and age. A new
value is put into the list, nothing else touches it, and no value ever moves. So in every function
that can be reached the list is sorted and complete, and what is looked up in it is exact.
-/

namespace TypeRecovery

/-! ## Location order -/

namespace Location

variable {a b c x : Location} {l : List Location}

/-- One place comes before another: by space, then by offset, then by size, then by age. -/
def Before (a b : Location) : Prop :=
  a.space < b.space ∨ a.space = b.space ∧
    (a.offset < b.offset ∨ a.offset = b.offset ∧
      (a.size < b.size ∨ a.size = b.size ∧ a.id < b.id))

private theorem compare_eq_lt_iff : a.compare b = .lt ↔ a.Before b := by
  simp only [compare, Before, Ordering.then_eq_lt, Nat.compare_eq_lt, Nat.compare_eq_eq,
    UInt64.lt_iff_toNat_lt, UInt64.toNat_inj]

/-- Location order is transitive. -/
theorem Before.trans (h : a.Before b) (h' : b.Before c) : a.Before c := by
  simp only [Before, UInt64.lt_iff_toNat_lt, ← UInt64.toNat_inj] at h h' ⊢
  grind

/-- The places of two values always come one before the other. -/
theorem before_or_before (h : a.id ≠ b.id) : a.Before b ∨ b.Before a := by
  simp only [Before, UInt64.lt_iff_toNat_lt, ← UInt64.toNat_inj]
  grind

/-- A new place is put after those before it. -/
theorem pairwise_insert (hl : l.Pairwise Before) (hnew : ∀ y ∈ l, x.id ≠ y.id) :
    (x.insert l).Pairwise Before := by
  induction l with
  | nil => exact List.pairwise_singleton _ _
  | cons y rest ih =>
    obtain ⟨hy, hrest⟩ := List.pairwise_cons.mp hl
    rw [insert]
    split
    · rename_i hlt
      have hxy := compare_eq_lt_iff.mp hlt
      refine List.pairwise_cons.mpr ⟨fun z hz => ?_, hl⟩
      rcases List.mem_cons.mp hz with rfl | hz
      · exact hxy
      · exact hxy.trans (hy z hz)
    · rename_i hge
      have hyx : y.Before x := (before_or_before (hnew y List.mem_cons_self)).resolve_left
        fun h => hge (compare_eq_lt_iff.mpr h)
      refine List.pairwise_cons.mpr
        ⟨fun z hz => ?_, ih hrest fun z hz => hnew z (List.mem_cons_of_mem y hz)⟩
      rcases Graph.Location.mem_insert.mp hz with rfl | hz
      · exact hyx
      · exact hy z hz

end Location

/-! ## Graphs in location order -/

namespace Graph

variable {g g' : Graph} {v : Nat}

/-- The list of places is sorted, and it holds the place of every value, each of them once. -/
structure InOrder (g : Graph) : Prop where
  /-- There is one place for each value. -/
  perm : g.locations.Perm ((List.range g.varnodes.size).map fun v => (g.varnode v).location v)
  /-- The places are in order. -/
  sorted : g.locations.Pairwise Location.Before

/-- The values of the second graph are where those of the first one are. -/
structure SameStorage (g g' : Graph) : Prop where
  /-- The number of values is the same. -/
  size : g'.varnodes.size = g.varnodes.size
  /-- Every value is where it was. -/
  location : ∀ v, (g'.varnode v).location v = (g.varnode v).location v
  /-- The list of places is the same. -/
  locations : g'.locations = g.locations

private theorem SamePlaces.sameStorage (h : g.SamePlaces g') : g.SameStorage g' where
  size := h.size
  location v := by rw [Varnode.location, h.address, h.sizes]; rfl
  locations := h.locations

private theorem sameStorage_modifyVarnode (g : Graph) (v : Nat) {f : Varnode → Varnode}
    (hf : ∀ node w, (f node).location w = node.location w) :
    g.SameStorage (g.modifyVarnode v f) where
  size := by simp [modifyVarnode]
  location w := g.varnode_modifyVarnode_frame (fun node => node.location w) (fun node => hf node w)
    v w
  locations := rfl

/-- Storage is a matter of the values and their locations. -/
theorem SameStorage.of_parts (hvarnodes : g'.varnodes = g.varnodes)
    (hlocations : g'.locations = g.locations) : g.SameStorage g' where
  size := by rw [hvarnodes]
  location v := by rw [varnode, varnode, hvarnodes]
  locations := hlocations

/-- Values that are where they were are in order as they were. -/
theorem SameStorage.inOrder (h : g.SameStorage g') (hg : g.InOrder) : g'.InOrder where
  perm := by
    rw [h.locations, h.size, List.map_congr_left fun v _ => h.location v]
    exact hg.perm
  sorted := by
    rw [h.locations]
    exact hg.sorted

private theorem inOrder_empty (hvarnodes : g.varnodes = #[]) (hlocations : g.locations = []) :
    g.InOrder where
  perm := by simp [hvarnodes, hlocations]
  sorted := by simp [hlocations]

/-- The list of locations has those of the values. -/
theorem InOrder.mem_locations (hg : g.InOrder) {l : Location} :
    l ∈ g.locations ↔ ∃ v < g.varnodes.size, (g.varnode v).location v = l := by
  rw [hg.perm.mem_iff]
  simp only [List.mem_map, List.mem_range]

/-- A new value is put in its place. -/
theorem InOrder.addVarnode (hg : g.InOrder) (node : Varnode) : (g.addVarnode node).InOrder where
  perm := by
    have hold : (List.range g.varnodes.size).map
        (fun v => ((g.addVarnode node).varnode v).location v) =
          (List.range g.varnodes.size).map fun v => (g.varnode v).location v := by
      refine List.map_congr_left fun v hv => ?_
      rw [varnode_addVarnode, if_neg (Nat.ne_of_lt (List.mem_range.mp hv))]
    have hsize : (g.addVarnode node).varnodes.size = g.varnodes.size + 1 := by
      simp [Graph.addVarnode]
    rw [hsize, List.range_succ, List.map_append, hold, List.map_singleton, varnode_addVarnode,
      if_pos rfl]
    exact (Location.insert_perm _ g.locations).trans
      ((hg.perm.cons _).trans (List.perm_append_singleton _ _).symm)
  sorted := by
    refine Location.pairwise_insert hg.sorted fun y hy => ?_
    obtain ⟨v, hv, rfl⟩ := hg.mem_locations.mp hy
    exact (Nat.ne_of_lt hv).symm

/-! ## Queries -/

/-- Values that are listed in the order of their places. -/
def Listed (g : Graph) (values : List VarnodeId) : Prop :=
  values.Pairwise fun v w => ((g.varnode v).location v).Before ((g.varnode w).location w)

/-- An input of the function with an address and a size. -/
structure InputAt (g : Graph) (size : Nat) (address : Address) (v : VarnodeId) : Prop where
  /-- The value exists. -/
  has : v < g.varnodes.size
  /-- It is there on entry. -/
  input : (g.varnode v).input = true
  /-- It has the address. -/
  address : (g.varnode v).address = address
  /-- It has the size. -/
  size : (g.varnode v).size = size

/-- What is taken from the list of places is listed in order. -/
theorem InOrder.listed (hg : g.InOrder) {l : List Location} (hl : l.Sublist g.locations) :
    g.Listed (l.map (·.id)) := by
  refine List.pairwise_map.mpr ((hg.sorted.sublist hl).imp_of_mem fun ha hb hbefore => ?_)
  obtain ⟨v, -, rfl⟩ := hg.mem_locations.mp (hl.subset ha)
  obtain ⟨w, -, rfl⟩ := hg.mem_locations.mp (hl.subset hb)
  exact hbefore

/-- Each value is listed once. -/
theorem InOrder.byLocation_perm (hg : g.InOrder) :
    g.byLocation.Perm (List.range g.varnodes.size) := by
  have hids := hg.perm.map (·.id)
  rw [List.map_map] at hids
  exact hids.trans (.of_eq (List.map_id _))

/-- The list of locations is an index of the values. -/
theorem InOrder.indexed (hg : g.InOrder) : g.Indexed := by
  intro l hl
  obtain ⟨v, -, rfl⟩ := hg.mem_locations.mp hl
  rfl

/-- The values in a range are those of the space that start within it. -/
theorem InOrder.mem_valuesInRange (hg : g.InOrder) {space : SpaceId} {start : UInt64}
    {stop : Option UInt64} : v ∈ g.valuesInRange space start stop ↔
      v < g.varnodes.size ∧ (g.varnode v).address.space = space ∧
        start ≤ (g.varnode v).address.offset ∧ ∀ e ∈ stop, (g.varnode v).address.offset < e := by
  have hlocated (w : Nat) : w ∈ g.byLocation ↔ w < g.varnodes.size := by
    rw [hg.byLocation_perm.mem_iff, List.mem_range]
  rw [hg.indexed.mem_valuesInRange hlocated]
  cases stop <;> simp

/-- The values in a range are listed in location order. -/
theorem InOrder.listed_valuesInRange (hg : g.InOrder) (space : SpaceId) (start : UInt64)
    (stop : Option UInt64) : g.Listed (g.valuesInRange space start stop) := by
  obtain ⟨l, hl, heq⟩ := g.exists_sublist_valuesInRange space start stop
  rw [heq]
  exact hg.listed hl

/-- The values between an offset and the next one are those that start at the offset, also if it is
the last one of all. -/
theorem InOrder.mem_values_at (hg : g.InOrder) {address : Address} :
    v ∈ g.valuesInRange address.space address.offset (successor? address.offset) ↔
      v < g.varnodes.size ∧ (g.varnode v).address = address := by
  rw [hg.mem_valuesInRange, ← eq_iff_before_successor?]
  cases address
  cases (g.varnode v).address
  simp

private theorem InOrder.inputAt_iff (hg : g.InOrder) {size : Nat} {address : Address} :
    g.InputAt size address v ↔
      v ∈ g.valuesInRange address.space address.offset (successor? address.offset) ∧
        ((g.varnode v).input && (g.varnode v).size = size) = true := by
  rw [hg.mem_values_at, Bool.and_eq_true, decide_eq_true_eq]
  constructor
  · exact fun h => ⟨⟨h.has, h.address⟩, h.input, h.size⟩
  · exact fun h => ⟨h.1.1, h.2.1, h.1.2, h.2.2⟩

/-- An input is not found exactly if there is none. -/
theorem InOrder.findInput?_eq_none_iff (hg : g.InOrder) {size : Nat} {address : Address} :
    g.findInput? size address = none ↔ ∀ v, ¬g.InputAt size address v := by
  simp only [findInput?, List.find?_eq_none, hg.inputAt_iff, not_and]

/-- Among values with one address and one size the older one is listed first. -/
theorem lt_of_before {w : Nat} {size : Nat} {address : Address} (hv : g.InputAt size address v)
    (hw : g.InputAt size address w)
    (h : ((g.varnode v).location v).Before ((g.varnode w).location w)) : v < w := by
  simp only [Varnode.location, Location.Before, hv.address, hw.address, hv.size, hw.size,
    Nat.lt_irrefl, UInt64.lt_irrefl, false_or, true_and] at h
  exact h

/-- The input that is found first is the oldest. -/
theorem InOrder.le_of_findInput? (hg : g.InOrder) {size : Nat} {address : Address}
    (h : g.findInput? size address = some v) :
    g.InputAt size address v ∧ ∀ w, g.InputAt size address w → v ≤ w := by
  obtain ⟨hfound, before, after, hsplit, hbefore⟩ := List.find?_eq_some_iff_append.mp h
  have hat : g.InputAt size address v :=
    hg.inputAt_iff.mpr ⟨List.mem_of_find?_eq_some h, hfound⟩
  refine ⟨hat, fun w hw => ?_⟩
  obtain ⟨hmem, hmatch⟩ := hg.inputAt_iff.mp hw
  rw [hsplit, List.mem_append, List.mem_cons] at hmem
  rcases hmem with hearlier | rfl | hlater
  · have hnot := hbefore w hearlier
    rw [hmatch] at hnot
    cases hnot
  · exact Nat.le_refl _
  · have hlisted := hg.listed_valuesInRange address.space address.offset
      (successor? address.offset)
    rw [hsplit, Listed, List.pairwise_append, List.pairwise_cons] at hlisted
    exact Nat.le_of_lt (lt_of_before hat hw (hlisted.2.1.1 w hlater))

/-- The input that is found is the oldest one at its place. -/
theorem InOrder.findInput?_eq_some_iff (hg : g.InOrder) {size : Nat} {address : Address} :
    g.findInput? size address = some v ↔
      g.InputAt size address v ∧ ∀ w, g.InputAt size address w → v ≤ w := by
  refine ⟨hg.le_of_findInput?, fun ⟨hat, hleast⟩ => ?_⟩
  cases hfind : g.findInput? size address with
  | none => exact absurd hat (hg.findInput?_eq_none_iff.mp hfind v)
  | some w =>
    obtain ⟨hat', hleast'⟩ := hg.le_of_findInput? hfind
    rw [Nat.le_antisymm (hleast' v hat) (hleast w hat')]

end Graph

/-! ## Reachable functions -/

namespace Routine

variable {r r' : Routine}

/-- A function that is reached from one without values by putting it together further and by calls
of type recovery, in any order. -/
inductive Reachable : Routine → Prop where
  | empty (name : String) (spaces : SpaceTable) (stack : SpaceId) (types : TypeTable) :
      Reachable (Routine.empty name spaces stack types)
  | assembles {r r' : Routine} : Reachable r → r.Assembles r' → Reachable r'
  | call {r : Routine} (a : Call) : Reachable r → Reachable (r.call a)

/-- No change of what is noted about a function moves a value. -/
theorem sameStorage_amend (r : Routine) (e : Amendment) :
    r.graph.SameStorage (r.amend e).graph := by
  cases e with
  | mask v mask => exact (r.graph.samePlaces_setMask v mask).sameStorage
  | masks => exact r.graph.samePlaces_computeMasks.sameStorage
  | flags v annotated tied => exact r.graph.sameStorage_modifyVarnode v fun _ _ => rfl
  | spaceBase v =>
    have h := r.graph.sameStorage_modifyVarnode v
      (f := fun node => { node with spaceBase := true, input := true }) fun _ _ => rfl
    exact ⟨h.size, h.location, h.locations⟩
  | bind v entry =>
    have h := r.graph.sameStorage_modifyVarnode v
      (f := fun node => { node with entry := some r.graph.entries.size }) fun _ _ => rfl
    exact ⟨h.size, h.location, h.locations⟩
  | _ => exact .of_parts rfl rfl

private theorem inOrder_attempt (hr : r.graph.InOrder) (a : Addition) :
    (r.attempt a).graph.InOrder := by
  cases a with
  | op op =>
    rcases r.attempt_op op with ⟨-, heq⟩ | heq
    · rw [heq]
      exact (r.graph.samePlaces_linkOp op).sameStorage.inOrder hr
    · rwa [heq]
  | _ => exact hr.addVarnode _

private theorem Assembles.inOrder (h : r.Assembles r') (hr : r.graph.InOrder) :
    r'.graph.InOrder := by
  induction h with
  | refl => exact hr
  | add a _ ih => exact inOrder_attempt ih a
  | @amend m e _ ih => exact (m.sameStorage_amend e).inOrder ih

/-- Every function that can be reached has its values in order. -/
theorem Reachable.inOrder (h : r.Reachable) : r.graph.InOrder := by
  induction h with
  | empty name spaces stack types => exact Graph.inOrder_empty rfl rfl
  | assembles _ hr ih => exact hr.inOrder ih
  | @call r a _ ih => rwa [graph_call]

private theorem assembles_attempts (r : Routine) (additions : List Addition) :
    r.Assembles (r.attempts additions) :=
  List.foldlRecOn (motive := fun x : Routine => r.Assembles x) additions _ .refl
    fun _ hx a _ => hx.add a

/-- The function that a description describes can be reached. -/
theorem reachable_build {d : Description} {n : NamedRoutine} (h : d.build = .ok n) :
    n.routine.Reachable := by
  obtain ⟨name, spaces, stack, types, hassembles⟩ := Description.isNew_build h
  exact .assembles (.empty name spaces stack types) hassembles

/-- In every function that can be reached, the list by location holds every value once, in the order
of spaces, offsets, sizes and age. The values in a range of a space are listed in this order too,
and they are those that start in the range. The input that is found for an address and a size is the
oldest one that has both, and none is found only if there is none. -/
theorem Reachable.location_queries (h : r.Reachable) :
    (r.graph.byLocation.Perm (List.range r.graph.varnodes.size) ∧
      r.graph.Listed r.graph.byLocation) ∧
    (∀ space start stop, r.graph.Listed (r.graph.valuesInRange space start stop) ∧
      ∀ v, v ∈ r.graph.valuesInRange space start stop ↔
        v < r.graph.varnodes.size ∧ (r.graph.varnode v).address.space = space ∧
          start ≤ (r.graph.varnode v).address.offset ∧
          ∀ e ∈ stop, (r.graph.varnode v).address.offset < e) ∧
    ∀ size address,
      (∀ v, r.graph.findInput? size address = some v ↔
        r.graph.InputAt size address v ∧ ∀ w, r.graph.InputAt size address w → v ≤ w) ∧
      (r.graph.findInput? size address = none ↔ ∀ v, ¬r.graph.InputAt size address v) := by
  have hg := h.inOrder
  exact ⟨⟨hg.byLocation_perm, hg.listed (.refl _)⟩,
    fun space start stop =>
      ⟨hg.listed_valuesInRange space start stop, fun v => hg.mem_valuesInRange⟩,
    fun size address => ⟨fun v => hg.findInput?_eq_some_iff, hg.findInput?_eq_none_iff⟩⟩

/-- Inputs and other values of two spaces, two of them at the last offset, added out of order. -/
def scattered : List Addition :=
  [.input 4 ⟨2, 0xFFFFFFFFFFFFFFFF⟩, .varnode 8 ⟨1, 16⟩, .input 4 ⟨1, 16⟩, .varnode 4 ⟨1, 16⟩,
    .input 4 ⟨1, 16⟩, .input 4 ⟨2, 0xFFFFFFFFFFFFFFFF⟩, .varnode 1 ⟨1, 0⟩]

/-- The values are listed in order, the older one of the two inputs at the last offset is found
there, and a range without an end reaches both of them. -/
theorem scattered_location_queries :
    let r := ((Routine.empty "f" .simple 2 (TypeTable.empty 8)).attempts scattered).call (.apply {})
    r.graph.byLocation = [6, 2, 3, 4, 1, 0, 5] ∧ r.graph.Listed [6, 2, 3, 4, 1, 0, 5] ∧
      r.graph.findInput? 4 ⟨2, 0xFFFFFFFFFFFFFFFF⟩ = some 0 ∧
      0 ∈ r.graph.valuesInRange 2 0xFFFFFFFFFFFFFFFF none ∧
      5 ∈ r.graph.valuesInRange 2 0xFFFFFFFFFFFFFFFF none ∧
      5 ∉ r.graph.valuesInRange 2 0 (some 0xFFFFFFFFFFFFFFFF) := by
  intro r
  have hr : r.Reachable := .call _ (.assembles (.empty _ _ _ _) (assembles_attempts _ scattered))
  obtain ⟨⟨-, hlisted⟩, hranges, hinputs⟩ := hr.location_queries
  have hgraph : r.graph =
      ((Routine.empty "f" .simple 2 (TypeTable.empty 8)).attempts scattered).graph := graph_call _ _
  have horder : r.graph.byLocation = [6, 2, 3, 4, 1, 0, 5] := by
    rw [hgraph]
    decide +kernel
  have hlast (v : Nat) (hv : v = 0 ∨ v = 5) :
      r.graph.InputAt 4 ⟨2, 0xFFFFFFFFFFFFFFFF⟩ v := by
    rw [hgraph]
    rcases hv with rfl | rfl <;>
      exact ⟨by decide +kernel, by decide +kernel, by decide +kernel, by decide +kernel⟩
  have hreached (v : Nat) (hv : r.graph.InputAt 4 ⟨2, 0xFFFFFFFFFFFFFFFF⟩ v) :
      v ∈ r.graph.valuesInRange 2 0xFFFFFFFFFFFFFFFF none := by
    refine ((hranges 2 _ none).2 v).mpr ⟨hv.has, ?_, ?_, fun e he => by cases he⟩
    · rw [hv.address]
    · rw [hv.address]
      exact UInt64.le_refl _
  have hzero := hlast 0 (Or.inl rfl)
  have hfive := hlast 5 (Or.inr rfl)
  refine ⟨horder, horder ▸ hlisted, ((hinputs 4 _).1 0).mpr ⟨hzero, fun w _ => Nat.zero_le w⟩,
    hreached 0 hzero, hreached 5 hfive, fun hmem => ?_⟩
  obtain ⟨-, -, -, hbelow⟩ := ((hranges 2 0 (some _)).2 5).mp hmem
  have hlt := hbelow _ rfl
  rw [hfive.address] at hlt
  exact UInt64.lt_irrefl _ hlt

end Routine

end TypeRecovery
