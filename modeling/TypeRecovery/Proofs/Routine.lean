import TypeRecovery.Routine
import TypeRecovery.Proofs.DataType.Layout

/-!
# Well-formed functions

A well-formed function refers only to values, ops and types that exist, its ops and values refer to
one another, and every value has a place in location order. The first part says how the types of
one value are updated and what the updates leave alone.
-/

namespace TypeRecovery

namespace TypeState

variable {s s' : TypeState} {t v w : Nat}

/-- Changing what is known of one value leaves the other values alone. -/
theorem typing_modify (s : TypeState) (v : Nat) (f : Typing → Typing) (w : Nat) :
    (s.modify v f).typing w =
      if w = v ∧ v < s.values.size then f (s.typing v) else s.typing w := by
  rw [typing, modify, Array.getElem?_modify]
  by_cases hv : v < s.values.size
  · by_cases hw : v = w
    · subst hw
      simp [typing, hv]
    · simp [typing, hw, Ne.symm hw]
  · by_cases hw : v = w
    · subst hw
      simp [typing, hv]
    · simp [typing, hw, hv]

/-- An update keeps whatever it keeps of each single value. -/
theorem typing_modify_frame {α : Type} (part : Typing → α) (s : TypeState) (v : Nat)
    (f : Typing → Typing) (w : Nat) (hf : ∀ y, part (f y) = part y) :
    part ((s.modify v f).typing w) = part (s.typing w) := by
  rw [typing_modify]
  split
  · rename_i h
    rw [h.1, hf]
  · rfl

@[simp] theorem size_modify (s : TypeState) (v : Nat) (f : Typing → Typing) :
    (s.modify v f).values.size = s.values.size := by
  simp [modify]

/-- An update that changes nothing about its value changes nothing. -/
theorem modify_eq_self {f : Typing → Typing} (h : f (s.typing v) = s.typing v) :
    s.modify v f = s := by
  have hvalues : s.values.modify v f = s.values := by
    apply Array.ext_getElem?
    intro i
    rw [Array.getElem?_modify]
    split
    · rename_i hi
      subst hi
      cases hv : s.values[v]? with
      | none => rfl
      | some y => simpa [typing, hv] using h
    · rfl
  rw [modify, hvalues]

section SetTemporary

@[simp] theorem types_setTemporary : (s.setTemporary v t).types = s.types := rfl

@[simp] theorem choices_setTemporary : (s.setTemporary v t).choices = s.choices := rfl

@[simp] theorem size_setTemporary : (s.setTemporary v t).values.size = s.values.size :=
  size_modify ..

/-- Replacing a temporary type is seen at the value alone, and only if there is one. -/
theorem temporary_setTemporary : (s.setTemporary v t).temporary w =
    if w = v ∧ v < s.values.size then t else s.temporary w := by
  rw [temporary, setTemporary, typing_modify]
  split <;> rfl

/-- The temporary types of other values stay. -/
theorem temporary_setTemporary_ne (h : w ≠ v) :
    (s.setTemporary v t).temporary w = s.temporary w := by
  rw [temporary_setTemporary, if_neg fun hw => h hw.1]

/-- Replacing the temporary type of a value by itself changes nothing. -/
theorem setTemporary_eq_self (h : s.temporary v = t) : s.setTemporary v t = s :=
  modify_eq_self (by rw [← h]; rfl)

@[simp] theorem committed_setTemporary : (s.setTemporary v t).committed w = s.committed w :=
  typing_modify_frame Typing.committed s v _ w fun _ => rfl

@[simp] theorem locked_setTemporary : (s.setTemporary v t).locked w = s.locked w :=
  typing_modify_frame Typing.locked s v _ w fun _ => rfl

@[simp] theorem blocked_setTemporary : (s.setTemporary v t).blocked w = s.blocked w :=
  typing_modify_frame Typing.blocked s v _ w fun _ => rfl

end SetTemporary

section Block

@[simp] theorem types_block : (s.block v).types = s.types := rfl

@[simp] theorem choices_block : (s.block v).choices = s.choices := rfl

@[simp] theorem size_block : (s.block v).values.size = s.values.size := size_modify ..

@[simp] theorem temporary_block : (s.block v).temporary w = s.temporary w :=
  typing_modify_frame Typing.temporary s v _ w fun _ => rfl

@[simp] theorem committed_block : (s.block v).committed w = s.committed w :=
  typing_modify_frame Typing.committed s v _ w fun _ => rfl

@[simp] theorem locked_block : (s.block v).locked w = s.locked w :=
  typing_modify_frame Typing.locked s v _ w fun _ => rfl

/-- Blocking is seen at the value alone. -/
theorem blocked_block : (s.block v).blocked w =
    if w = v ∧ v < s.values.size then true else s.blocked w := by
  rw [blocked, block, typing_modify]
  split <;> rfl

/-- Blocking a blocked value changes nothing. -/
theorem block_eq_self (h : s.blocked v = true) : s.block v = s :=
  modify_eq_self (by rw [← show (s.typing v).blocked = true from h])

end Block

section WithTypes

variable {u : TypeTable}

@[simp] theorem types_withTypes : (s.withTypes u).types = u := rfl

@[simp] theorem choices_withTypes : (s.withTypes u).choices = s.choices := rfl

@[simp] theorem values_withTypes : (s.withTypes u).values = s.values := rfl

@[simp] theorem temporary_withTypes : (s.withTypes u).temporary w = s.temporary w := rfl

@[simp] theorem committed_withTypes : (s.withTypes u).committed w = s.committed w := rfl

@[simp] theorem locked_withTypes : (s.withTypes u).locked w = s.locked w := rfl

@[simp] theorem blocked_withTypes : (s.withTypes u).blocked w = s.blocked w := rfl

end WithTypes

section Choose

variable {o field : Nat} {slot : Slot}

@[simp] theorem types_choose : (s.choose o slot field).types = s.types := rfl

@[simp] theorem values_choose : (s.choose o slot field).values = s.values := rfl

@[simp] theorem temporary_choose : (s.choose o slot field).temporary w = s.temporary w := rfl

@[simp] theorem committed_choose : (s.choose o slot field).committed w = s.committed w := rfl

@[simp] theorem locked_choose : (s.choose o slot field).locked w = s.locked w := rfl

@[simp] theorem blocked_choose : (s.choose o slot field).blocked w = s.blocked w := rfl

/-- A new choice is found at its slot, and the choices at other slots are what they were. -/
theorem choice?_choose (o' : Nat) (slot' : Slot) : (s.choose o slot field).choice? o' slot' =
    if o' = o ∧ slot' = slot then some field else s.choice? o' slot' := by
  rw [choice?, choose, List.lookup_cons]
  by_cases h : (o', slot') = (o, slot)
  · have h' := Prod.mk.inj h
    simp [h'.1, h'.2]
  · have h' : ¬(o' = o ∧ slot' = slot) := fun hh => h (by rw [hh.1, hh.2])
    rw [if_neg h']
    simp only [beq_eq_false_iff_ne.mpr h]
    rfl

end Choose

section Lock

@[simp] theorem types_lock : (s.lock v t).types = s.types := rfl

@[simp] theorem choices_lock : (s.lock v t).choices = s.choices := rfl

@[simp] theorem size_lock : (s.lock v t).values.size = s.values.size := size_modify ..

/-- Fixing a type replaces the temporary type of the value. -/
theorem temporary_lock : (s.lock v t).temporary w =
    if w = v ∧ v < s.values.size then t else s.temporary w := by
  rw [temporary, lock, typing_modify]
  split <;> rfl

/-- Fixing a type replaces the committed type of the value. -/
theorem committed_lock : (s.lock v t).committed w =
    if w = v ∧ v < s.values.size then t else s.committed w := by
  rw [committed, lock, typing_modify]
  split <;> rfl

/-- Fixing a type locks the value and no other one. -/
theorem locked_lock : (s.lock v t).locked w =
    if w = v ∧ v < s.values.size then true else s.locked w := by
  rw [locked, lock, typing_modify]
  split <;> rfl

end Lock

section Commit

@[simp] theorem types_commit : (s.commit v t).types = s.types := by
  rw [commit]
  split <;> rfl

@[simp] theorem choices_commit : (s.commit v t).choices = s.choices := by
  rw [commit]
  split <;> rfl

@[simp] theorem size_commit : (s.commit v t).values.size = s.values.size := by
  rw [commit]
  split
  · exact size_modify ..
  · rfl

/-- A commit changes nothing but committed types. -/
theorem typing_commit_frame {α : Type} (part : Typing → α)
    (hpart : ∀ y c, part { y with committed := c } = part y) :
    part ((s.commit v t).typing w) = part (s.typing w) := by
  rw [commit]
  split
  · exact typing_modify_frame part s v _ w fun y => hpart y t
  · rfl

@[simp] theorem temporary_commit : (s.commit v t).temporary w = s.temporary w :=
  typing_commit_frame Typing.temporary fun _ _ => rfl

@[simp] theorem locked_commit : (s.commit v t).locked w = s.locked w :=
  typing_commit_frame Typing.locked fun _ _ => rfl

@[simp] theorem blocked_commit : (s.commit v t).blocked w = s.blocked w :=
  typing_commit_frame Typing.blocked fun _ _ => rfl

/-- A commit replaces the committed type of a value that is not locked. -/
theorem committed_commit : (s.commit v t).committed w =
    if w = v ∧ v < s.values.size ∧ s.locked v = false then t else s.committed w := by
  rw [commit]
  cases hl : s.locked v with
  | true => simp [canCommit, hl]
  | false =>
    by_cases hc : s.committed v = t
    · have hcan : s.canCommit v t = false := by simp [canCommit, hc]
      rw [hcan]
      by_cases hw : w = v
      · simp [hw, hc]
      · simp [hw]
    · have hcan : s.canCommit v t = true := by simp [canCommit, hc, hl]
      rw [if_pos hcan, committed, typing_modify]
      by_cases hw : w = v ∧ v < s.values.size
      · rw [if_pos hw, if_pos ⟨hw.1, hw.2, rfl⟩]
      · rw [if_neg hw, if_neg fun h => hw ⟨h.1, h.2.1⟩]
        rfl

end Commit

/-- A state is given by its table, its choices and what it knows of the values. -/
theorem ext_of_typing {s s' : TypeState} (htypes : s'.types = s.types)
    (hchoices : s'.choices = s.choices) (hsize : s'.values.size = s.values.size)
    (htyping : ∀ v, s'.typing v = s.typing v) : s' = s := by
  have hvalues : s'.values = s.values := by
    apply Array.ext hsize
    intro v hv hv'
    have hboth := htyping v
    rw [typing, typing, Array.getElem?_eq_getElem hv, Array.getElem?_eq_getElem hv'] at hboth
    exact hboth
  cases s
  cases s'
  cases htypes
  cases hchoices
  cases hvalues
  rfl

/-- Every type held by a value exists, and so do the components of every type. -/
structure Valid (s : TypeState) : Prop where
  /-- Components are older than their types. -/
  types : s.types.WellFormed
  /-- Temporary types exist. -/
  temporary : ∀ v, s.types.Has (s.temporary v)
  /-- Committed types exist. -/
  committed : ∀ v, s.types.Has (s.committed v)

namespace Valid

/-- A temporary type may be replaced by any type that exists. -/
theorem setTemporary (h : s.Valid) (ht : s.types.Has t) : (s.setTemporary v t).Valid := by
  refine ⟨h.types, ?_, fun w => by simpa using h.committed w⟩
  intro w
  rw [temporary_setTemporary]
  split
  · exact ht
  · exact h.temporary w

/-- The table may be replaced by one that extends it. -/
theorem withTypes (h : s.Valid) {u : TypeTable} (hu : s.types.Extends u) (hwf : u.WellFormed) :
    (s.withTypes u).Valid :=
  ⟨hwf, fun w => hu.has (h.temporary w), fun w => hu.has (h.committed w)⟩

/-- A type that exists may be fixed. -/
theorem lock (h : s.Valid) (ht : s.types.Has t) : (s.lock v t).Valid := by
  refine ⟨h.types, fun w => ?_, fun w => ?_⟩
  · rw [temporary_lock]
    split
    · exact ht
    · exact h.temporary w
  · rw [committed_lock]
    split
    · exact ht
    · exact h.committed w

/-- A type that exists may be committed. -/
theorem commit (h : s.Valid) (ht : s.types.Has t) : (s.commit v t).Valid := by
  refine ⟨by simpa using h.types, fun w => by simpa using h.temporary w, fun w => ?_⟩
  rw [types_commit, committed_commit]
  split
  · exact ht
  · exact h.committed w

end Valid

/-- Every value has its committed type as its temporary type. -/
def Agreed (s : TypeState) : Prop := ∀ v, s.temporary v = s.committed v

namespace Agreed

/-- Fixing a type gives it to the value for both of its types. -/
theorem lock (h : s.Agreed) (v t : Nat) : (s.lock v t).Agreed := by
  intro w
  rw [temporary_lock, committed_lock, h w]

/-- A type that is committed to a value and given to it for now, if the value is not locked. -/
theorem commit (h : s.Agreed) (hv : s.locked v = false) (t : Nat) :
    ((s.commit v t).setTemporary v t).Agreed := by
  intro w
  rw [temporary_setTemporary, committed_setTemporary, temporary_commit, committed_commit,
    size_commit, h w]
  simp only [hv, and_true]

end Agreed

end TypeState

namespace Graph

/-- Values and ops refer to one another, and every value has a place in location order. -/
structure WellFormed (g : Graph) : Prop where
  /-- An op has a value as an operand exactly when it is one of the readers of the value. -/
  reads : ∀ o v : Nat, v ∈ (g.op o).inputs ↔ o ∈ (g.varnode v).readers
  /-- An op has a value as its result exactly when it is the op that writes the value. -/
  writes : ∀ o v : Nat, (g.op o).output = some v ↔ (g.varnode v).definition = some o
  /-- Exactly the values of the graph have a place in location order. -/
  located : ∀ v : Nat, v ∈ g.byLocation ↔ v < g.varnodes.size

/-- The types that a graph mentions exist. -/
structure TypesIn (g : Graph) (t : TypeTable) : Prop where
  /-- The types of symbols exist. -/
  symbols : ∀ symbol ∈ g.symbols, t.Has symbol.type
  /-- Recommended types exist. -/
  recommendations : ∀ r ∈ g.recommendations, t.Has r.type
  /-- The returned type exists. -/
  prototype : ∀ id ∈ g.prototype.outputType, t.Has id

/-- Types that a graph mentions stay where they are when the table grows. -/
theorem TypesIn.mono {g : Graph} {t u : TypeTable} (h : g.TypesIn t) (hu : t.Extends u) :
    g.TypesIn u :=
  ⟨fun x hx => hu.has (h.symbols x hx), fun x hx => hu.has (h.recommendations x hx),
    fun x hx => hu.has (h.prototype x hx)⟩

variable {g : Graph} {o v : Nat}

/-- An op is one of the ops of the graph, or there is none at its position. -/
theorem op_mem_or (g : Graph) (o : Nat) : g.op o ∈ g.ops ∨ g.op o = default := by
  rw [op]
  cases h : g.ops[o]? with
  | none => exact Or.inr rfl
  | some x => exact Or.inl (Array.mem_of_getElem? h)

/-- A position without a value is read by no op and written by none. -/
theorem varnode_of_le (h : g.varnodes.size ≤ v) : g.varnode v = default := by
  rw [varnode, Array.getElem?_eq_none h, Option.getD_none]

/-- Behind the last op there are only stand-ins. -/
theorem op_of_le (h : g.ops.size ≤ o) : g.op o = default := by
  rw [op, Array.getElem?_eq_none h, Option.getD_none]

/-- Only an op of the graph has a result. -/
theorem lt_size_of_output (h : (g.op o).output = some v) : o < g.ops.size := by
  apply Nat.lt_of_not_le
  intro hle
  rw [op_of_le hle] at h
  cases h

/-- The values and ops that are there refer to one another. -/
theorem wellFormed_iff : g.WellFormed ↔
    (∀ o < g.ops.size, (∀ v ∈ (g.op o).inputs, o ∈ (g.varnode v).readers) ∧
      ∀ v ∈ (g.op o).output, (g.varnode v).definition = some o) ∧
    (∀ v < g.varnodes.size, (∀ o ∈ (g.varnode v).readers, v ∈ (g.op o).inputs) ∧
      ∀ o ∈ (g.varnode v).definition, (g.op o).output = some v) ∧
    (∀ v ∈ g.byLocation, v < g.varnodes.size) ∧ ∀ v < g.varnodes.size, v ∈ g.byLocation := by
  constructor
  · intro h
    exact ⟨fun o _ => ⟨fun v => (h.reads o v).mp, fun v => (h.writes o v).mp⟩,
      fun v _ => ⟨fun o => (h.reads o v).mpr, fun o => (h.writes o v).mpr⟩,
      fun v => (h.located v).mp, fun v => (h.located v).mpr⟩
  · rintro ⟨hops, hvarnodes, hplaced, hplaces⟩
    refine ⟨fun o v => ⟨fun hv => ?_, fun ho => ?_⟩, fun o v => ⟨fun hv => ?_, fun ho => ?_⟩,
      fun v => ⟨hplaced v, hplaces v⟩⟩
    -- a position without an op or a value refers to nothing
    · by_cases hlt : o < g.ops.size
      · exact (hops o hlt).1 v hv
      · rw [op_of_le (Nat.le_of_not_lt hlt)] at hv
        cases hv
    · by_cases hlt : v < g.varnodes.size
      · exact (hvarnodes v hlt).1 o ho
      · rw [varnode_of_le (Nat.le_of_not_lt hlt)] at ho
        cases ho
    · by_cases hlt : o < g.ops.size
      · exact (hops o hlt).2 v hv
      · rw [op_of_le (Nat.le_of_not_lt hlt)] at hv
        cases hv
    · by_cases hlt : v < g.varnodes.size
      · exact (hvarnodes v hlt).2 o ho
      · rw [varnode_of_le (Nat.le_of_not_lt hlt)] at ho
        cases ho

instance (g : Graph) : Decidable g.WellFormed := decidable_of_iff' _ wellFormed_iff

private theorem typesIn_iff {t : TypeTable} : g.TypesIn t ↔
    (∀ symbol ∈ g.symbols, t.Has symbol.type) ∧ (∀ r ∈ g.recommendations, t.Has r.type) ∧
      ∀ id ∈ g.prototype.outputType, t.Has id :=
  ⟨fun h => ⟨h.symbols, h.recommendations, h.prototype⟩, fun h => ⟨h.1, h.2.1, h.2.2⟩⟩

instance (g : Graph) (t : TypeTable) : Decidable (g.TypesIn t) := decidable_of_iff' _ typesIn_iff

/-- The operands of ops are values of the graph. -/
theorem WellFormed.lt_of_mem_inputs (hg : g.WellFormed) (h : v ∈ (g.op o).inputs) :
    v < g.varnodes.size := by
  by_contra hlt
  have hr := (hg.reads o v).mp h
  rw [varnode_of_le (Nat.le_of_not_lt hlt)] at hr
  cases hr

/-- The results of ops are values of the graph. -/
theorem WellFormed.lt_of_output (hg : g.WellFormed) (h : (g.op o).output = some v) :
    v < g.varnodes.size := by
  by_contra hlt
  have hr := (hg.writes o v).mp h
  rw [varnode_of_le (Nat.le_of_not_lt hlt)] at hr
  cases hr

/-- What is read at a position is an operand. -/
theorem mem_inputs_of_input? {op : Op} {i : Nat} (h : op.input? i = some v) : v ∈ op.inputs :=
  List.mem_of_getElem? h

/-- The slot of a value holds the value. -/
theorem input?_of_slotOf? {op : Op} {i : Nat} (h : op.slotOf? v = some i) :
    op.input? i = some v := by
  obtain ⟨hlt, heq, -⟩ := List.findIdx?_eq_some_iff_getElem.mp h
  rw [Op.input?, List.getElem?_eq_getElem hlt]
  exact congrArg some (of_decide_eq_true heq)

/-- The values at the slots of ops are values of the graph. -/
theorem WellFormed.lt_of_at? (hg : g.WellFormed) {slot : Slot} (h : (g.op o).at? slot = some v) :
    v < g.varnodes.size := by
  cases slot with
  | output => exact hg.lt_of_output h
  | input i => exact hg.lt_of_mem_inputs (mem_inputs_of_input? h)

/-- A value at a slot of an op takes part in type recovery unless it only annotates. -/
theorem WellFormed.observable_of_at? (hg : g.WellFormed) {slot : Slot}
    (h : (g.op o).at? slot = some v) (ha : Varnode.annotation (g.varnode v) = false) :
    (g.varnode v).isObservable = true := by
  have hused : ((g.varnode v).isWritten || !(g.varnode v).readers.isEmpty) = true := by
    cases slot with
    | output =>
      have hd := (hg.writes o v).mp h
      simp [Varnode.isWritten, hd]
    | input i =>
      have hr := (hg.reads o v).mp (mem_inputs_of_input? h)
      cases hl : (g.varnode v).readers with
      | nil => simp [hl] at hr
      | cons x xs => simp
  rw [Varnode.isObservable, ha, hused]
  rfl

/-- The observable values are those that are listed by location and can be observed. -/
theorem mem_observables :
    v ∈ g.observables ↔ v ∈ g.byLocation ∧ (g.varnode v).isObservable = true := by
  simp [observables]

/-- The values that take part in type recovery exist. -/
theorem WellFormed.lt_of_observable (h : (g.varnode v).isObservable = true) :
    v < g.varnodes.size := by
  by_contra hlt
  rw [varnode_of_le (Nat.le_of_not_lt hlt)] at h
  cases h

/-- In a well-formed graph all values that can be observed are listed. -/
theorem WellFormed.mem_observables (hg : g.WellFormed) :
    v ∈ g.observables ↔ (g.varnode v).isObservable = true := by
  rw [Graph.mem_observables, hg.located]
  exact ⟨fun h => h.2, fun h => ⟨lt_of_observable h, h⟩⟩

end Graph

/-- A function whose parts refer only to what exists. -/
structure Routine.WellFormed (r : Routine) : Prop where
  /-- Values and ops refer to one another. -/
  graph : r.graph.WellFormed
  /-- Components are older than their types. -/
  types : r.state.types.WellFormed
  /-- Something is known of every value. -/
  sizes : r.state.values.size = r.graph.varnodes.size
  /-- The types of values exist. -/
  typings : ∀ y ∈ r.state.values, r.state.types.Has y.committed ∧ r.state.types.Has y.temporary
  /-- The types of symbols, recommendations and the prototype exist. -/
  mentioned : r.graph.TypesIn r.state.types

/-- What makes a function well-formed can be decided. -/
theorem Routine.wellFormed_iff {r : Routine} : r.WellFormed ↔
    r.graph.WellFormed ∧ r.state.types.WellFormed ∧
      r.state.values.size = r.graph.varnodes.size ∧
      (∀ y ∈ r.state.values, r.state.types.Has y.committed ∧ r.state.types.Has y.temporary) ∧
      r.graph.TypesIn r.state.types :=
  ⟨fun h => ⟨h.graph, h.types, h.sizes, h.typings, h.mentioned⟩,
    fun h => ⟨h.1, h.2.1, h.2.2.1, h.2.2.2.1, h.2.2.2.2⟩⟩

instance (r : Routine) : Decidable r.WellFormed := decidable_of_iff' _ Routine.wellFormed_iff

/-- Only the graph and the types make a function well-formed. -/
theorem Routine.WellFormed.congr {r r' : Routine} (h : r.WellFormed) (hgraph : r'.graph = r.graph)
    (hstate : r'.state = r.state) : r'.WellFormed where
  graph := hgraph ▸ h.graph
  types := hstate ▸ h.types
  sizes := by rw [hstate, hgraph, h.sizes]
  typings := hstate ▸ h.typings
  mentioned := by
    rw [hgraph, hstate]
    exact h.mentioned

/-- The types of a well-formed function that has values are valid. -/
theorem Routine.WellFormed.valid {r : Routine} (h : r.WellFormed)
    (hpos : 0 < r.graph.varnodes.size) : r.state.Valid := by
  have hany : 0 < r.state.values.size := h.sizes ▸ hpos
  have hzero : r.state.types.Has 0 :=
    Nat.lt_of_le_of_lt (Nat.zero_le _)
      (h.typings r.state.values[0] (Array.getElem_mem hany)).1
  have hboth (v : Nat) : r.state.types.Has (r.state.committed v) ∧
      r.state.types.Has (r.state.temporary v) := by
    rw [TypeState.committed, TypeState.temporary, TypeState.typing]
    by_cases hv : v < r.state.values.size
    · rw [Array.getElem?_eq_getElem hv, Option.getD_some]
      exact h.typings _ (Array.getElem_mem hv)
    · rw [Array.getElem?_eq_none (Nat.le_of_not_lt hv), Option.getD_none]
      exact ⟨hzero, hzero⟩
  exact ⟨h.types, fun v => (hboth v).2, fun v => (hboth v).1⟩

/-- A function is well-formed if its graph is and its types are valid. -/
theorem Routine.WellFormed.of_valid {r r' : Routine} (hr : r.WellFormed)
    (hgraph : r'.graph = r.graph) (htypes : r.state.types.Extends r'.state.types)
    (hsize : r'.state.values.size = r.state.values.size) (hvalid : r'.state.Valid) :
    r'.WellFormed where
  graph := hgraph ▸ hr.graph
  types := hvalid.types
  sizes := by rw [hsize, hr.sizes, hgraph]
  typings y hy := by
    obtain ⟨v, hv, rfl⟩ := Array.mem_iff_getElem.mp hy
    have htyping : r'.state.typing v = r'.state.values[v] := by
      rw [TypeState.typing, Array.getElem?_eq_getElem hv, Option.getD_some]
    have hcommitted := hvalid.committed v
    have htemporary := hvalid.temporary v
    rw [TypeState.committed, htyping] at hcommitted
    rw [TypeState.temporary, htyping] at htemporary
    exact ⟨hcommitted, htemporary⟩
  mentioned := hgraph ▸ hr.mentioned.mono htypes

/-- Constants, memory with registers, and a frame. -/
def SpaceTable.simple : SpaceTable :=
  ⟨#[.constants, ⟨"ram", .processor, 8, 1, false⟩, ⟨"stack", .stack, 8, 1, false⟩]⟩

end TypeRecovery
