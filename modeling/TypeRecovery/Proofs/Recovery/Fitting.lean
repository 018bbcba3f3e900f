import TypeRecovery.Proofs.Recovery.Round

/-!
# Types that fit their values

Nothing compares the size of a type with the size of the value that takes it, and a wider type
counts as more specific. In a function whose ops combine values of the sizes they are meant to have
the types fit all the same: what flows out of a value is no wider than the value, what an edge
carries is then no wider than its destination, and what is taken there is no narrower than what it
replaces. A first guess has the size of its value by construction.
-/

namespace TypeRecovery

/-- The values of every op have the sizes that the op means them to have. -/
structure Graph.WellSized (g : Graph) : Prop where
  /-- Values between which a type goes as it is have one size. -/
  same : ∀ op ∈ g.ops, ∀ pair ∈ op.sameSized, (g.varnode pair.1).size = (g.varnode pair.2).size
  /-- A value is no wider than the address through which it is accessed. -/
  accesses : ∀ op ∈ g.ops, ∀ pair ∈ op.accesses,
    (g.varnode pair.1).size ≤ (g.varnode pair.2).size

/-- Both types of every value have the size of the value. -/
structure TypeState.Sized (s : TypeState) (g : Graph) : Prop where
  /-- Temporary types have it. -/
  temporary : ∀ v < g.varnodes.size, s.types.size (s.temporary v) = (g.varnode v).size
  /-- Committed types have it. -/
  committed : ∀ v < g.varnodes.size, s.types.size (s.committed v) = (g.varnode v).size

/-- A function whose ops and types agree with the sizes of its values. -/
structure Routine.WellSized (r : Routine) : Prop where
  /-- The ops agree. -/
  graph : r.graph.WellSized
  /-- The types agree. -/
  types : r.state.Sized r.graph

/-- A graph is well-sized if the values that have one type at an op have one size, and no accessed
part is wider than the whole. -/
theorem Graph.wellSized_iff {g : Graph} : g.WellSized ↔
    (∀ op ∈ g.ops, ∀ pair ∈ op.sameSized,
      (g.varnode pair.1).size = (g.varnode pair.2).size) ∧
    ∀ op ∈ g.ops, ∀ pair ∈ op.accesses, (g.varnode pair.1).size ≤ (g.varnode pair.2).size :=
  ⟨fun h => ⟨h.same, h.accesses⟩, fun h => ⟨h.1, h.2⟩⟩

instance (g : Graph) : Decidable g.WellSized := decidable_of_iff' _ Graph.wellSized_iff

/-- A state is sized if all temporary and all committed types are as wide as their values. -/
theorem TypeState.sized_iff {s : TypeState} {g : Graph} : s.Sized g ↔
    (∀ v < g.varnodes.size, s.types.size (s.temporary v) = (g.varnode v).size) ∧
    ∀ v < g.varnodes.size, s.types.size (s.committed v) = (g.varnode v).size :=
  ⟨fun h => ⟨h.temporary, h.committed⟩, fun h => ⟨h.1, h.2⟩⟩

instance (s : TypeState) (g : Graph) : Decidable (s.Sized g) :=
  decidable_of_iff' _ TypeState.sized_iff

instance (r : Routine) : Decidable r.WellSized :=
  decidable_of_iff (r.graph.WellSized ∧ r.state.Sized r.graph)
    ⟨fun h => ⟨h.1, h.2⟩, fun h => ⟨h.graph, h.types⟩⟩

section Ops

variable {g : Graph} {o v w : Nat}

/-- Values of one type at an op have one size. -/
theorem Graph.WellSized.size_eq (h : g.WellSized) (halike : (g.op o).Alike v w) :
    (g.varnode v).size = (g.varnode w).size := by
  have hsame (pair : VarnodeId × VarnodeId) (hpair : pair ∈ (g.op o).sameSized) :
      (g.varnode pair.1).size = (g.varnode pair.2).size := by
    rcases g.op_mem_or o with hop | hnone
    · exact h.same _ hop pair hpair
    · rw [hnone] at hpair
      cases hpair
  rcases halike with hpair | hpair
  · exact hsame _ hpair
  · exact (hsame _ hpair).symm

/-- An accessed part is no wider than the whole. -/
theorem Graph.WellSized.size_le (h : g.WellSized) (haccess : (v, w) ∈ (g.op o).accesses) :
    (g.varnode v).size ≤ (g.varnode w).size := by
  rcases g.op_mem_or o with hop | hnone
  · exact h.accesses _ hop _ haccess
  · rw [hnone] at haccess
    cases haccess

end Ops

namespace Recovery

open TypeTable TypeState

variable {g : Graph} {skip : Bool} {s s' : TypeState} {p q : Pass} {r : EdgeRef} {t v : Nat}

/-- The types of a state exist, have the sizes of their values, and hold the fields of unions. -/
structure Fitting (g : Graph) (s : TypeState) : Prop where
  /-- The types exist. -/
  valid : s.Valid
  /-- No field of a union is wider than the union. -/
  unions : s.types.UnionsFit
  /-- The types have the sizes of their values. -/
  sized : s.Sized g

/-- Types still fit after something was learned. -/
theorem Fitting.learns (h : Fitting g s) (hlearns : s.Learns s') : Fitting g s' where
  valid := hlearns.valid h.valid
  unions := h.unions.grows h.valid.types hlearns.types
  sized := by
    refine ⟨fun v hv => ?_, fun v hv => ?_⟩
    · rw [hlearns.temporary, hlearns.types.extends.size (h.valid.temporary v)]
      exact h.sized.temporary v hv
    · rw [hlearns.committed, hlearns.types.extends.size (h.valid.committed v)]
      exact h.sized.committed v hv

/-- Types still fit after one was replaced by another one of its size. -/
theorem Fitting.setTemporary (h : Fitting g s) (hhas : s.types.Has t)
    (hsize : s.types.size t = (g.varnode v).size) : Fitting g (s.setTemporary v t) where
  valid := h.valid.setTemporary hhas
  unions := h.unions
  sized := by
    refine ⟨fun w hw => ?_, fun w hw => ?_⟩
    · rw [temporary_setTemporary]
      split
      · rename_i hvw
        rw [hvw.1]
        exact hsize
      · exact h.sized.temporary w hw
    · rw [committed_setTemporary]
      exact h.sized.committed w hw

/-- Types still fit after one of the size of its value was fixed. -/
theorem Fitting.lock (h : Fitting g s) (hhas : s.types.Has t)
    (hsize : s.types.size t = (g.varnode v).size) : Fitting g (s.lock v t) where
  valid := h.valid.lock hhas
  unions := h.unions
  sized := by
    refine ⟨fun w hw => ?_, fun w hw => ?_⟩
    · rw [temporary_lock]
      split
      · rename_i hvw
        rw [hvw.1]
        exact hsize
      · exact h.sized.temporary w hw
    · rw [committed_lock]
      split
      · rename_i hvw
        rw [hvw.1]
        exact hsize
      · exact h.sized.committed w hw

/-! ## Edges -/

/-- Resolving a union never gives a wider type. -/
theorem size_resolveUnion_le (hfit : s.types.UnionsFit) (t o : Nat) (slot : Slot) :
    (resolveUnion s t o slot).2.types.size (resolveUnion s t o slot).1 ≤ s.types.size t := by
  rw [resolveUnion]
  have htypes := types_chooseField s ((s.types.pointee? t).getD t) o slot
  generalize hunion : (s.types.pointee? t).getD t = union at htypes ⊢
  generalize chooseField s union o slot = chosen at htypes ⊢
  dsimp only
  cases hf : chosen.1.bind fun index => (s.types.unionFields union)[index]? with
  | none =>
    dsimp only
    rw [htypes]
  | some field =>
    obtain ⟨index, -, hindex⟩ := Option.bind_eq_some_iff.mp hf
    cases hp : s.types.pointee? t with
    | none =>
      rw [hp, Option.getD_none] at hunion
      subst hunion
      dsimp only
      rw [htypes]
      exact hfit t field (List.mem_of_getElem? hindex)
    | some pointee => exact (isPointer_pointerSized ..).size.le

/-- What flows out of a value is no wider than the value. -/
theorem size_flowingType_le (h : Fitting g s) (hv : v < g.varnodes.size) (o : Nat) (slot : Slot) :
    (flowingType s v o slot).2.types.size (flowingType s v o slot).1 ≤ (g.varnode v).size := by
  rw [← h.sized.temporary v hv, flowingType]
  split
  · exact size_resolveUnion_le h.unions _ o slot
  · exact Nat.le_refl _

/-- What an edge carries is no wider than its destination, if what flows into it is no wider than
its source. -/
theorem size_transfer_le (hsizes : g.WellSized) {e : Edge} {o : Nat} (hop : e.op = g.op o)
    (hs : s.Valid) (hhas : s.types.Has e.type) (he : e.Joins)
    (hwidth : s.types.size e.type ≤ (g.varnode e.source).size)
    (hdest : s.types.size (s.temporary e.dest) = (g.varnode e.dest).size) {new : Interned}
    (h : Transfer.transfer g s e = some new) :
    new.table.size new.id ≤ (g.varnode e.dest).size := by
  have hext := (Transfer.gives_transfer hs hhas h).grows.extends
  cases Transfer.carries_transfer he h with
  | kept hsame =>
    rw [hsame, hext.size (hs.temporary e.dest)]
    exact hdest.le
  | passed halike hsame =>
    rw [hop] at halike
    rw [hsame, hext.size hhas, ← hsizes.size_eq halike]
    exact hwidth
  | moved halike hpointer =>
    rw [hop] at halike
    rw [hpointer.size, ← hsizes.size_eq halike]
    exact hwidth
  | address _ hpointer =>
    rw [hpointer.size]
    exact hdest.le
  | nested haccess hsame _ =>
    rw [hop] at haccess
    rw [hsame, hext.size hhas]
    exact hwidth.trans (hsizes.size_le haccess)
  | pointee _ htarget hsize =>
    rw [hext.size (hs.types.has_pointee hhas htarget), hsize]
    exact hdest.le
  | piece _ _ offset hpiece =>
    rw [hext.size (hs.types.has_exactPiece hhas hpiece), size_exactPiece hpiece]

/-- A type that is taken along an edge has the size of the value that takes it. -/
theorem size_of_taken (hg : g.WellFormed) (hsizes : g.WellSized) (h : Fitting g s)
    (htaken : (judge g skip s r).taken = some (v, t)) :
    (judge g skip s r).state.types.size t = (g.varnode v).size := by
  obtain ⟨source, flow, new, hin, hout, hflow, hadmits, htransfer, rfl, hmore, hstate⟩ :=
    judge_eq_some htaken
  obtain ⟨hlearns, hhas⟩ := flowingType_learns h.valid source r.op r.inSlot
  have hwidth := size_flowingType_le h (hg.lt_of_at? hin) r.op r.inSlot
  rw [hflow] at hlearns hhas hwidth
  have hfitting := h.learns hlearns
  have hext := (Transfer.gives_transfer hfitting.valid hhas htransfer).grows.extends
  have hold : flow.2.types.size (flow.2.temporary v) = (g.varnode v).size :=
    hfitting.sized.temporary v (hg.lt_of_at? hout)
  rw [hstate, types_withTypes]
  apply Nat.le_antisymm
  · exact size_transfer_le hsizes rfl hfitting.valid hhas (joins_of_admits hin hout hadmits) hwidth
      hold htransfer
  · -- a more specific type is no narrower
    rw [← hold, ← hext.size (hfitting.valid.temporary v)]
    exact size_le_of_order_lt (moreSpecific_iff.mp hmore)

/-! ## First guesses -/

/-- The type of a returned value has the size that was asked for. -/
theorem size_returnedType (g : Graph) (types : TypeTable) (size : Nat) :
    (Transfer.returnedType g types size).table.size (Transfer.returnedType g types size).id =
      size := by
  rw [Transfer.returnedType]
  cases g.prototype.outputType with
  | none => exact types.size_atom size .unknown
  | some id =>
    dsimp only
    split
    · rename_i hmatch
      exact hmatch.2
    · exact types.size_atom size .unknown

/-- A candidate so far, if there is one, is a type of the grown table with the size of the value. -/
structure Candidate (g : Graph) (s : TypeState) (v : VarnodeId)
    (best : Option TypeId × TypeTable) : Prop where
  /-- The table grew by atoms and pointers. -/
  grows : s.types.Grows best.2
  /-- The table holds the candidate. -/
  holds : Transfer.HoldsCandidate best
  /-- The candidate has the size of the value. -/
  size : ∀ id ∈ best.1, best.2.size id = (g.varnode v).size

section Guesses

variable (h : Fitting g s) (hv : v < g.varnodes.size)

include h hv

/-- An op takes an operand in a type of its size. -/
theorem size_localInput {op : Op} {index : Nat} (hin : op.input? index = some v) :
    (Transfer.localInput g s op index).table.size (Transfer.localInput g s op index).id =
      (g.varnode v).size := by
  rw [Transfer.localInput, hin]
  dsimp only
  split
  · exact h.sized.committed v hv
  · split
    · exact s.types.size_atom _ _
    · split
      · exact size_returnedType ..
      · split
        · exact s.types.size_atom _ _
        · exact s.types.size_atom _ _

/-- An op delivers its result in a type of its size. -/
theorem size_localOutput {op : Op} (hout : op.output = some v) :
    (Transfer.localOutput g s op).table.size (Transfer.localOutput g s op).id =
      (g.varnode v).size := by
  rw [Transfer.localOutput, hout]
  dsimp only
  split
  · exact h.sized.committed v hv
  · exact s.types.size_atom _ _

/-- A reader replaces a candidate only by one of the same size. -/
theorem Candidate.refineByReader (hmentioned : g.TypesIn s.types)
    {best : Option TypeId × TypeTable} (hbest : Candidate g s v best) (reader : Nat) :
    Candidate g s v (Transfer.refineByReader g s v best reader) := by
  obtain ⟨hgrows, hholds⟩ :=
    Transfer.refineByReader_grows h.valid hmentioned hbest.grows hbest.holds v reader
  refine ⟨hbest.grows.trans hgrows, hholds, ?_⟩
  have hfitting := h.learns ((Learns.refl s).withTypes hbest.grows)
  rw [Transfer.refineByReader]
  cases hslot : (g.op reader).slotOf? v with
  | none => exact hbest.size
  | some index =>
    have hsize := size_localInput hfitting hv (Graph.input?_of_slotOf? hslot)
    have hgives := Transfer.gives_localInput hfitting.valid (hmentioned.mono hbest.grows.extends)
      (g.op reader) index
    dsimp only
    generalize Transfer.localInput g (s.withTypes best.2) (g.op reader) index = hint
      at hsize hgives ⊢
    cases hb : best.1 with
    | none =>
      rintro id ⟨⟩
      exact hsize
    | some current =>
      rintro id ⟨⟩
      change hint.table.size (hint.table.moreSpecificOf current hint.id) = _
      rw [moreSpecificOf]
      split
      · exact hsize
      · exact (hgives.grows.extends.size (hbest.holds current hb)).trans (hbest.size current hb)

/-- The type that readers give to a value has its size. -/
theorem size_refineByReaders (hmentioned : g.TypesIn s.types) {start : Option TypeId × TypeTable}
    (hstart : Candidate g s v start) :
    (Transfer.refineByReaders g s v start).table.size (Transfer.refineByReaders g s v start).id =
      (g.varnode v).size := by
  have hfold : Candidate g s v
      ((g.varnode v).readers.foldl (Transfer.refineByReader g s v) start) :=
    List.foldlRecOn _ _ hstart fun _ hbest reader _ =>
      hbest.refineByReader h hv hmentioned reader
  rw [Transfer.refineByReaders]
  split
  · rename_i id hid
    exact hfold.size id hid
  · exact size_atom ..

/-- The local type of a value has its size. -/
theorem size_localType (hg : g.WellFormed) (hmentioned : g.TypesIn s.types) :
    (Transfer.localType g s v).table.size (Transfer.localType g s v).id = (g.varnode v).size := by
  rw [Transfer.localType]
  split
  · exact h.sized.committed v hv
  · cases hd : (g.varnode v).definition with
    | none =>
      exact size_refineByReaders h hv hmentioned
        ⟨.refl, fun _ hid => (by cases hid), fun _ hid => by cases hid⟩
    | some o =>
      have hwritten := Transfer.gives_localOutput (g := g) h.valid (g.op o)
      have hsize := size_localOutput h hv ((hg.writes o v).mpr hd)
      dsimp only
      split
      · exact hsize
      · refine size_refineByReaders h hv hmentioned ⟨hwritten.grows, ?_, ?_⟩
        · rintro id ⟨⟩
          exact hwritten.has
        · rintro id ⟨⟩
          exact hsize

end Guesses

/-- The piece of a symbol that a value gets has its size. -/
theorem size_symbolPiece (h : symbolPiece? g s v = some t) :
    s.types.size t = (g.varnode v).size := by
  rw [symbolPiece?] at h
  cases he : (g.varnode v).entry.bind (g.entries[·]?) with
  | none => rw [he] at h; cases h
  | some entry =>
    rw [he] at h
    dsimp only at h
    cases hsym : g.symbols[entry.symbol]? with
    | none => rw [hsym] at h; cases h
    | some symbol =>
      rw [hsym] at h
      dsimp only at h
      split at h
      · rw [Option.filter_eq_some_iff] at h
        exact size_exactPiece h.1
      · cases h

/-- The first guess at the type of a value has the size of the value. -/
theorem size_seedType (h : Fitting g s) (hv : v < g.varnodes.size) (hg : g.WellFormed)
    (hmentioned : g.TypesIn s.types) :
    (seedType g s v).table.size (seedType g s v).id = (g.varnode v).size := by
  rw [seedType]
  cases hp : symbolPiece? g s v with
  | some t => exact size_symbolPiece hp
  | none => exact size_localType h hv hg hmentioned

end Recovery

end TypeRecovery
