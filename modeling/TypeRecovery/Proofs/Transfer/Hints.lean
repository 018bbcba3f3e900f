import TypeRecovery.Proofs.DataType.Interning
import TypeRecovery.Proofs.DataType.Size
import TypeRecovery.Proofs.Graph.Links
import TypeRecovery.Proofs.Transfer.Local

/-!
# The first guess is the least hint

Each op around a value hints at a type for it: a type that exists already, or an atom that may have
to be added to the table. The first guess goes through the hints in turn and keeps the more specific
of two types, while the table grows. It ends with the least of all hints. The ages of types decide
between two hints only if both existed before, since an atom is told by its size and metatype. So
the order of the readers has no part in the guess but for the position that a new atom gets.
-/

namespace TypeRecovery

namespace TypeTable

variable {t u : TypeTable} {a b : Nat}

/-- Two tables that grew from one hold structurally the same type: a type of the same name, size and
shape, made of types of the table that they grew from. -/
structure SameType (t : TypeTable) (i j : Interned) : Prop where
  /-- The first table grew from the common one. -/
  left : t.Extends i.table
  /-- So did the second one. -/
  right : t.Extends j.table
  /-- The types agree. -/
  data : (i.table.get i.id).toDataType = (j.table.get j.id).toDataType
  /-- Their components are types of the common table. -/
  components : ∀ c ∈ (i.table.shape i.id).components, t.Has c

/-- A type with the metatype of an atom is the atom of its size. -/
theorem Made.eq_atom {d : DataType} {atom : Atom} (h : t.Made d)
    (hmetatype : d.metatype = atom.metatype) :
    d = ⟨atom.typeName d.size, d.size, atom.metatype, .atom atom, rfl⟩ := by
  cases h with
  | atom size other =>
    have hsame : other = atom := by
      cases other <;> cases atom <;> first | rfl | cases hmetatype
    subst hsame
    rfl
  | _ => cases atom <;> cases hmetatype

private theorem isLE_compareHeads (h : (t.order a b).isLE = true) :
    (t.compareHeads a b).isLE = true := by
  cases horder : t.order a b with
  | lt => exact isLE_compareHeads_of_compareAt_lt horder
  | eq =>
    have hself : t.compareHeads b b = .eq := Std.ReflCmp.compare_self
    rw [Std.LawfulEqCmp.eq_of_compare horder, hself]
    rfl
  | gt =>
    rw [horder] at h
    cases h

end TypeTable

namespace Transfer

open TypeTable

/-! ## Hints -/

/-- A type at which an op hints. -/
inductive Hint where
  /-- A type of the table. -/
  | known (id : TypeId)
  /-- An atom, which the table need not hold. -/
  | atom (size : Nat) (a : Atom)
  deriving DecidableEq, Repr

namespace Hint

variable {h h' : Hint} {t u : TypeTable}

/-- The type of a hint, held by a table that may have grown for it. -/
def type (t : TypeTable) : Hint → Interned
  | known id => ⟨id, t⟩
  | atom size a => t.atom size a

/-- A known type is a type of the table. -/
def In (t : TypeTable) : Hint → Prop
  | known id => t.Has id
  | atom _ _ => True

/-- What the table says about the type of a hint, or will say. -/
def data (t : TypeTable) : Hint → DataType
  | known id => (t.get id).toDataType
  | atom size a => .atom size a

/-- A hint stays one for an extended table. -/
theorem In.mono (hin : h.In t) (hu : t.Extends u) : h.In u := by
  cases h with
  | known id => exact hu.has hin
  | atom size a => trivial

/-- The type that a hint means is given. -/
theorem gives_type (hin : h.In t) : t.Gives (h.type t) := by
  cases h with
  | known id => exact gives_self hin
  | atom size a => exact t.gives_atom size a

/-- The type that a hint means is found again. -/
theorem type_again (hu : (h.type t).table.Extends u) : h.type u = (h.type t).into u := by
  cases h with
  | known id => rfl
  | atom size a => exact atom_again hu

private theorem allMade_type (hmade : t.AllMade) (h : Hint) : (h.type t).table.AllMade := by
  cases h with
  | known id => exact hmade
  | atom size a => exact hmade.intern (.atom size a)

private theorem get_type (hmade : u.AllMade) (hin : h.In t) (hu : t.Extends u) :
    ((h.type u).table.get (h.type u).id).toDataType = h.data t := by
  cases h with
  | known id => exact congrArg TypeEntry.toDataType (hu.get hin)
  | atom size a => exact hmade.get_intern (.atom size a) rfl

private theorem made_data (hmade : t.AllMade) (hin : h.In t) : t.Made (h.data t) := by
  cases h with
  | known id => exact hmade.get hin
  | atom size a => exact .atom size a

end Hint

/-! ## The least of some hints -/

section Least

variable {t u : TypeTable} {h : Hint} {hints : List Hint} {best : Option TypeId × TypeTable}

/-- The more specific of the best type so far and the type of a hint. -/
def refineByHint (best : Option TypeId × TypeTable) (h : Hint) : Option TypeId × TypeTable :=
  let hint := h.type best.2
  match best.1 with
  | none => (some hint.id, hint.table)
  | some current => (some (hint.table.moreSpecificOf current hint.id), hint.table)

/-- The best type is the least one of those that were hinted at, and the table holds them all. -/
structure LeastOf (t : TypeTable) (hints : List Hint) (best : Option TypeId × TypeTable) :
    Prop where
  /-- The table grew by atoms. -/
  grows : t.Grows best.2
  /-- Constructors made its types. -/
  allMade : best.2.AllMade
  /-- Known types are types of the table at the start. -/
  known : ∀ h ∈ hints, h.In t
  /-- The types that were hinted at are there. -/
  settled : ∀ h ∈ hints, (h.type best.2).table = best.2
  /-- The best type was hinted at. -/
  hinted : ∀ id ∈ best.1, ∃ h ∈ hints, (h.type best.2).id = id
  /-- It comes before the others. -/
  least : ∀ id ∈ best.1, ∀ h ∈ hints, (best.2.order id (h.type best.2).id).isLE = true
  /-- There is none only if there was no hint. -/
  none : best.1 = none → hints = []

/-- Types that were hinted at stay the same in a table that grows. -/
theorem LeastOf.type_eq (hbest : LeastOf t hints best) (hu : best.2.Extends u) (hmem : h ∈ hints) :
    h.type u = ⟨(h.type best.2).id, u⟩ :=
  Hint.type_again ((hbest.settled h hmem).symm ▸ hu)

private theorem LeastOf.has_type (hbest : LeastOf t hints best) (hmem : h ∈ hints) :
    best.2.Has (h.type best.2).id := by
  have hhas := (Hint.gives_type ((hbest.known h hmem).mono hbest.grows.extends)).has
  rwa [hbest.settled h hmem] at hhas

/-- One more hint, and the type that is the least one then. -/
theorem LeastOf.add (hbest : LeastOf t hints best) (hin : h.In t) {id : TypeId}
    (hid : id = (h.type best.2).id ∨ ∃ x ∈ hints, (x.type best.2).id = id)
    (hold : ∀ x ∈ hints, ((h.type best.2).table.order id (x.type best.2).id).isLE = true)
    (hnew : ((h.type best.2).table.order id (h.type best.2).id).isLE = true) :
    LeastOf t (hints ++ [h]) (some id, (h.type best.2).table) := by
  have hgives := Hint.gives_type (hin.mono hbest.grows.extends)
  have hkept {x : Hint} (hx : x ∈ hints) : x.type (h.type best.2).table =
      ⟨(x.type best.2).id, (h.type best.2).table⟩ := hbest.type_eq hgives.grows.extends hx
  have hagain : h.type (h.type best.2).table = h.type best.2 := Hint.type_again (.refl _)
  refine ⟨hbest.grows.trans hgives.grows, Hint.allMade_type hbest.allMade h, ?_, ?_, ?_, ?_, nofun⟩
  · intro x hx
    rcases List.mem_append.mp hx with hx | hx
    · exact hbest.known x hx
    · rw [List.mem_singleton.mp hx]
      exact hin
  · intro x hx
    rcases List.mem_append.mp hx with hx | hx
    · rw [hkept hx]
    · rw [List.mem_singleton.mp hx, hagain]
  · rintro _ ⟨⟩
    rcases hid with rfl | ⟨x, hx, rfl⟩
    · exact ⟨h, List.mem_append_right _ (List.mem_singleton_self h), by rw [hagain]⟩
    · exact ⟨x, List.mem_append_left _ hx, by rw [hkept hx]⟩
  · rintro _ ⟨⟩ x hx
    rcases List.mem_append.mp hx with hx | hx
    · rw [hkept hx]
      exact hold x hx
    · rw [List.mem_singleton.mp hx, hagain]
      exact hnew

/-- A hint more keeps the least type the least one. -/
theorem LeastOf.refineByHint (ht : t.WellFormed) (hbest : LeastOf t hints best) (hin : h.In t) :
    LeastOf t (hints ++ [h]) (refineByHint best h) := by
  have hext := (Hint.gives_type (hin.mono hbest.grows.extends)).grows.extends
  have hself : ((h.type best.2).table.order (h.type best.2).id (h.type best.2).id).isLE = true := by
    rw [order_self]
    rfl
  rw [Transfer.refineByHint]
  cases hcurrent : best.1 with
  | none =>
    refine hbest.add hin (Or.inl rfl) (fun x hx => ?_) hself
    rw [hbest.none hcurrent] at hx
    cases hx
  | some current =>
    obtain ⟨found, hfound, hid⟩ := hbest.hinted current hcurrent
    -- the types that were hinted at before keep their order
    have hbefore (x : Hint) (hx : x ∈ hints) :
        ((h.type best.2).table.order current (x.type best.2).id).isLE = true := by
      rw [hext.order (hbest.grows.wellFormed ht) (hid ▸ hbest.has_type hfound) (hbest.has_type hx)]
      exact hbest.least current hcurrent x hx
    dsimp only
    rw [moreSpecificOf]
    split
    · rename_i hmore
      rw [moreSpecific_iff] at hmore
      refine hbest.add hin (Or.inl rfl) (fun x hx => ?_) hself
      exact Std.TransCmp.isLE_trans (by rw [hmore]; rfl) (hbefore x hx)
    · rename_i hmore
      rw [moreSpecific_iff] at hmore
      exact hbest.add hin (Or.inr ⟨found, hfound, hid⟩) hbefore (isLE_of_order_ne_lt hmore)

/-- Hints one after the other keep the least type the least one. -/
theorem LeastOf.foldl (ht : t.WellFormed) (hbest : LeastOf t hints best) {todo : List Hint}
    (hin : ∀ h ∈ todo, h.In t) :
    LeastOf t (hints ++ todo) (todo.foldl Transfer.refineByHint best) := by
  induction todo generalizing hints best with
  | nil => rwa [List.append_nil]
  | cons h todo ih =>
    have hstep := hbest.refineByHint ht (hin h List.mem_cons_self)
    have hrest := ih hstep fun x hx => hin x (List.mem_cons_of_mem h hx)
    rwa [List.append_assoc, List.singleton_append] at hrest

private theorem leastOf_nil (hmade : t.AllMade) : LeastOf t [] (none, t) :=
  ⟨.refl, hmade, nofun, nofun, nofun, nofun, fun _ => rfl⟩

private theorem LeastOf.get_type (hbest : LeastOf t hints best) (hmem : h ∈ hints) :
    (best.2.get (h.type best.2).id).toDataType = h.data t := by
  have hget := Hint.get_type hbest.allMade (hbest.known h hmem) hbest.grows.extends
  rwa [hbest.settled h hmem] at hget

/-- Two hints compare alike after whatever other hints. -/
theorem LeastOf.compareHeads_eq {hints' : List Hint} {best' : Option TypeId × TypeTable} {h' : Hint}
    (hbest : LeastOf t hints best) (hbest' : LeastOf t hints' best') (hmem : h ∈ hints)
    (hmem' : h ∈ hints') (hother : h' ∈ hints) (hother' : h' ∈ hints') :
    best'.2.compareHeads (h.type best'.2).id (h'.type best'.2).id =
      best.2.compareHeads (h.type best.2).id (h'.type best.2).id := by
  simp only [compareHeads, TypeTable.size, TypeTable.metatype, hbest.get_type hmem,
    hbest.get_type hother, hbest'.get_type hmem', hbest'.get_type hother']

/-- The ages of types decide only between known types. -/
theorem LeastOf.data_eq {hints' : List Hint} {best' : Option TypeId × TypeTable} {x y : Hint}
    (ht : t.WellFormed) (hmade : t.AllMade) (hbest : LeastOf t hints best)
    (hbest' : LeastOf t hints' best') (hsame : ∀ h, h ∈ hints ↔ h ∈ hints')
    (hx : x ∈ hints) (hy : y ∈ hints)
    (hle : (best.2.order (x.type best.2).id (y.type best.2).id).isLE = true)
    (hle' : (best'.2.order (y.type best'.2).id (x.type best'.2).id).isLE = true) :
    x.data t = y.data t := by
  have hx' := (hsame x).mp hx
  have hy' := (hsame y).mp hy
  have hheads : best.2.compareHeads (x.type best.2).id (y.type best.2).id = .eq := by
    refine Std.OrientedCmp.isLE_antisymm (isLE_compareHeads hle) ?_
    rw [← hbest.compareHeads_eq hbest' hy hy' hx hx']
    exact isLE_compareHeads hle'
  obtain ⟨hsize, hmetatype⟩ := metatype_eq_of_compareHeads hheads
  simp only [TypeTable.size, TypeTable.metatype, hbest.get_type hx, hbest.get_type hy]
    at hsize hmetatype
  have hmadeX := Hint.made_data hmade (hbest.known x hx)
  have hmadeY := Hint.made_data hmade (hbest.known y hy)
  cases x with
  | atom size a =>
    rw [hmadeY.eq_atom hmetatype.symm, ← hsize]
    rfl
  | known i =>
    cases y with
    | atom size a =>
      rw [hmadeX.eq_atom hmetatype, hsize]
      rfl
    | known j =>
      have hi : t.Has i := hbest.known _ hx
      have hj : t.Has j := hbest.known _ hy
      have hij : (t.order i j).isLE = true := hbest.grows.extends.order ht hi hj ▸ hle
      have hji : (t.order j i).isLE = true := hbest'.grows.extends.order ht hj hi ▸ hle'
      rw [Std.LawfulEqCmp.eq_of_compare (Std.OrientedCmp.isLE_antisymm hij hji)]

/-- The same hints give the same type, in whatever order they come. -/
theorem LeastOf.sameType {hints' : List Hint} {best' : Option TypeId × TypeTable} {id id' : TypeId}
    (ht : t.WellFormed) (hmade : t.AllMade) (hbest : LeastOf t hints best)
    (hbest' : LeastOf t hints' best') (hsame : ∀ h, h ∈ hints ↔ h ∈ hints')
    (hid : best.1 = some id) (hid' : best'.1 = some id') :
    t.SameType ⟨id, best.2⟩ ⟨id', best'.2⟩ := by
  obtain ⟨x, hx, rfl⟩ := hbest.hinted id hid
  obtain ⟨y, hy', rfl⟩ := hbest'.hinted id' hid'
  have hy := (hsame y).mpr hy'
  have hdata : x.data t = y.data t :=
    hbest.data_eq ht hmade hbest' hsame hx hy (hbest.least _ hid y hy)
      (hbest'.least _ hid' x ((hsame x).mp hx))
  refine ⟨hbest.grows.extends, hbest'.grows.extends, ?_, ?_⟩
  · rw [hbest.get_type hx, hbest'.get_type hy', hdata]
  · intro c hc
    rw [TypeTable.shape, hbest.get_type hx] at hc
    cases x with
    | atom size a => cases hc
    | known i => exact ht.has_component (hbest.known _ hx) hc

end Least

/-! ## The hints of the ops around a value -/

section Around

variable {g : Graph} {s : TypeState} {u : TypeTable} {v : VarnodeId}

/-- The hint of a prototype at a returned value. -/
def returnedHint (g : Graph) (t : TypeTable) (size : Nat) : Hint :=
  match g.prototype.outputType with
  | some id => if t.metatype id ≠ .void ∧ t.size id = size then .known id else .atom size .unknown
  | none => .atom size .unknown

/-- The hint of an op that reads a value at a position. -/
def inputHint (g : Graph) (s : TypeState) (v : VarnodeId) (op : Op) (index : Nat) : Hint :=
  let size := (g.varnode v).size
  if op.opcode.isPointerStep ∧ index = 0 then .known (s.committed v)
  else if op.opcode = .ptrSub then .atom size .unknown
  else if op.opcode = .ret ∧ 0 < index then returnedHint g s.types size
  else if op.opcode.isShift ∧ index = 1 then .atom size .int
  else .atom size (Atom.ofMetatype op.opcode.operandMetatype)

/-- The hint of the op that writes a value. -/
def outputHint (g : Graph) (s : TypeState) (v : VarnodeId) (op : Op) : Hint :=
  if op.opcode.isPointerStep then .known (s.committed v)
  else .atom (g.varnode v).size (Atom.ofMetatype op.opcode.resultMetatype)

/-- The hint of a reader at the first position of a value. -/
def readerHint? (g : Graph) (s : TypeState) (v : VarnodeId) (o : OpId) : Option Hint :=
  ((g.op o).slotOf? v).map (inputHint g s v (g.op o))

/-- The hints of the ops that write and read a value. -/
def hintsOf (g : Graph) (s : TypeState) (v : VarnodeId) : List Hint :=
  ((g.varnode v).definition.map fun o => outputHint g s v (g.op o)).toList ++
    (g.varnode v).readers.filterMap (readerHint? g s v)

/-- The type of a returned value is a hint. -/
theorem returnedType_eq {t : TypeTable} (hg : g.TypesIn t) (hu : t.Extends u) (size : Nat) :
    returnedType g u size = (returnedHint g t size).type u := by
  rw [returnedType, returnedHint]
  cases hp : g.prototype.outputType with
  | none => rfl
  | some id =>
    have hid := hg.prototype id hp
    simp only [hu.metatype hid, hu.size hid]
    split <;> rfl

/-- What an op says of an operand is a hint. -/
theorem localInput_eq (hg : g.TypesIn s.types) (hu : s.types.Extends u) {op : Op} {index : Nat}
    (hin : op.input? index = some v) :
    localInput g (s.withTypes u) op index = (inputHint g s v op index).type u := by
  rw [localInput, hin, inputHint]
  dsimp only
  split_ifs
  · rfl
  · rfl
  · exact returnedType_eq hg hu _
  · rfl
  · rfl

/-- What an op says of its result is a hint. -/
theorem localOutput_eq {op : Op} (hout : op.output = some v) :
    localOutput g (s.withTypes u) op = (outputHint g s v op).type u := by
  rw [localOutput, hout, outputHint]
  dsimp only
  split <;> rfl

private theorem in_inputHint (hs : s.Valid) (hg : g.TypesIn s.types) (op : Op) (index : Nat) :
    (inputHint g s v op index).In s.types := by
  rw [inputHint]
  split_ifs
  · exact hs.committed v
  · trivial
  · rw [returnedHint]
    split
    · rename_i id hid
      split
      · exact hg.prototype id hid
      · trivial
    · trivial
  · trivial
  · trivial

/-- The hints for a value mention types of the table. -/
theorem in_of_mem_hintsOf (hs : s.Valid) (hg : g.TypesIn s.types) {h : Hint}
    (hmem : h ∈ hintsOf g s v) : h.In s.types := by
  rcases List.mem_append.mp hmem with hwritten | hread
  · obtain ⟨o, -, rfl⟩ := Option.map_eq_some_iff.mp (Option.mem_toList.mp hwritten)
    rw [outputHint]
    split
    · exact hs.committed v
    · trivial
  · obtain ⟨o, -, hhint⟩ := List.mem_filterMap.mp hread
    obtain ⟨index, -, rfl⟩ := Option.map_eq_some_iff.mp hhint
    exact in_inputHint hs hg (g.op o) index

private theorem extends_refineByHint (best : Option TypeId × TypeTable) (h : Hint) :
    best.2.Extends (refineByHint best h).2 := by
  have htype : best.2.Extends (h.type best.2).table := by
    cases h with
    | known id => exact .refl _
    | atom size a => exact best.2.intern_extends _
  rw [refineByHint]
  cases best.1 <;> exact htype

/-- Readers refine a guess by their hints. -/
theorem refineByReader_foldl_eq (hg : g.TypesIn s.types) (readers : List OpId)
    {best : Option TypeId × TypeTable} (hbest : s.types.Extends best.2) :
    readers.foldl (refineByReader g s v) best =
      (readers.filterMap (readerHint? g s v)).foldl refineByHint best := by
  induction readers generalizing best with
  | nil => rfl
  | cons o rest ih =>
    cases hslot : (g.op o).slotOf? v with
    | none =>
      have hhint : readerHint? g s v o = none := by rw [readerHint?, hslot, Option.map_none]
      have hstep : refineByReader g s v best o = best := by rw [refineByReader, hslot]
      rw [List.filterMap_cons_none hhint, List.foldl_cons, hstep]
      exact ih hbest
    | some index =>
      have hhint : readerHint? g s v o = some (inputHint g s v (g.op o) index) := by
        rw [readerHint?, hslot, Option.map_some]
      have hstep : refineByReader g s v best o =
          refineByHint best (inputHint g s v (g.op o) index) := by
        rw [refineByReader, refineByHint, hslot]
        have hinput := localInput_eq hg hbest (Graph.input?_of_slotOf? hslot)
        cases best.1 with
        | none => simp only [hinput]
        | some current => simp only [hinput]
      rw [List.filterMap_cons_some hhint, List.foldl_cons, List.foldl_cons, hstep]
      exact ih (hbest.trans (extends_refineByHint best _))

/-- The most specific of the types that ops hint at, in a table that holds them all. -/
def bestHint (g : Graph) (s : TypeState) (v : VarnodeId) : Option TypeId × TypeTable :=
  (hintsOf g s v).foldl refineByHint (none, s.types)

/-- The best type, or unknown bytes if there is none. -/
def orUnknown (best : Option TypeId × TypeTable) (size : Nat) : Interned :=
  match best.1 with
  | some id => ⟨id, best.2⟩
  | none => best.2.unknown size

/-- No hint is kept from the guess at a value: the value is not locked, and the op that writes it
lets readers refine its type. -/
structure Refinable (g : Graph) (s : TypeState) (v : VarnodeId) : Prop where
  /-- The value is not locked. -/
  unlocked : s.locked v = false
  /-- The op that writes it does not stop propagation. -/
  passes : ∀ o ∈ (g.varnode v).definition, (g.op o).stopsPropagation = false
  /-- It has the value as its result. -/
  writes : ∀ o ∈ (g.varnode v).definition, (g.op o).output = some v

/-- The local type of a value is the best of its hints, or unknown. -/
theorem localType_eq (hg : g.TypesIn s.types) (hfree : Refinable g s v) :
    localType g s v =
      ⟨(orUnknown (bestHint g s v) (g.varnode v).size).id, false,
        (orUnknown (bestHint g s v) (g.varnode v).size).table⟩ := by
  rw [localType, if_neg (by rw [hfree.unlocked]; decide), bestHint, hintsOf]
  cases hdef : (g.varnode v).definition with
  | none =>
    dsimp only [Option.map_none, Option.toList_none, List.nil_append]
    rw [refineByReaders, refineByReader_foldl_eq hg _ (.refl s.types)]
    rfl
  | some o =>
    have hout : localOutput g s (g.op o) = (outputHint g s v (g.op o)).type s.types :=
      localOutput_eq (u := s.types) (hfree.writes o hdef)
    have hext : s.types.Extends (localOutput g s (g.op o)).table :=
      hout ▸ extends_refineByHint (none, s.types) (outputHint g s v (g.op o))
    dsimp only [Option.map_some, Option.toList_some, List.singleton_append, List.foldl_cons]
    rw [if_neg (by rw [hfree.passes o hdef]; decide), refineByReaders,
      refineByReader_foldl_eq hg _ hext, hout]
    rfl

/-- The types at which the ops around a value hint, asked for in a given state. -/
inductive IsHint (g : Graph) (s : TypeState) (v : VarnodeId) : Interned → Prop where
  /-- The type in which the op that writes the value delivers it. -/
  | written {o : OpId} : (g.varnode v).definition = some o →
      IsHint g s v (localOutput g s (g.op o))
  /-- The type in which a reader takes the value at its first position. -/
  | read {o : OpId} {index : Nat} : o ∈ (g.varnode v).readers →
      (g.op o).slotOf? v = some index → IsHint g s v (localInput g s (g.op o) index)

private theorem isHint_iff (hg : g.TypesIn s.types) (hfree : Refinable g s v)
    (hu : s.types.Extends u) {i : Interned} :
    IsHint g (s.withTypes u) v i ↔ ∃ h ∈ hintsOf g s v, h.type u = i := by
  constructor
  · intro hhint
    cases hhint with
    | @written o hdef =>
      refine ⟨_, List.mem_append_left _ ?_, (localOutput_eq (hfree.writes o hdef)).symm⟩
      rw [hdef]
      exact List.mem_singleton_self _
    | @read o index hread hslot =>
      refine ⟨_, List.mem_append_right _ (List.mem_filterMap.mpr ⟨o, hread, ?_⟩),
        (localInput_eq hg hu (Graph.input?_of_slotOf? hslot)).symm⟩
      rw [readerHint?, hslot, Option.map_some]
  · rintro ⟨h, hmem, rfl⟩
    rcases List.mem_append.mp hmem with hwritten | hread
    · obtain ⟨o, hdef, rfl⟩ := Option.map_eq_some_iff.mp (Option.mem_toList.mp hwritten)
      rw [← localOutput_eq (hfree.writes o hdef)]
      exact .written hdef
    · obtain ⟨o, ho, hhint⟩ := List.mem_filterMap.mp hread
      obtain ⟨index, hslot, rfl⟩ := Option.map_eq_some_iff.mp hhint
      rw [← localInput_eq hg hu (Graph.input?_of_slotOf? hslot)]
      exact .read ho hslot

/-- A guess is the least of the hints, all of which its table holds. -/
structure LeastHint (g : Graph) (s : TypeState) (v : VarnodeId) (guess : Guess) : Prop where
  /-- Readers may refine the type. -/
  blocks : guess.blocks = false
  /-- The types of the state are still there. -/
  kept : s.types.Extends guess.table
  /-- Asking for a hint again adds nothing. -/
  settled : ∀ hint, IsHint g (s.withTypes guess.table) v hint → hint.table = guess.table
  /-- The guess comes before every other hint. -/
  least : ∀ hint, IsHint g (s.withTypes guess.table) v hint →
    guess.id = hint.id ∨ guess.table.order guess.id hint.id = .lt
  /-- It is one of them, or unknown bytes if there is none. -/
  hinted : (∃ hint, IsHint g (s.withTypes guess.table) v hint ∧ guess.id = hint.id) ∨
    (∀ hint, ¬IsHint g (s.withTypes guess.table) v hint) ∧
      ⟨guess.id, guess.table⟩ = s.types.unknown (g.varnode v).size

private theorem leastOf_bestHint (hs : s.Valid) (hg : g.TypesIn s.types) (hmade : s.types.AllMade)
    (v : VarnodeId) : LeastOf s.types (hintsOf g s v) (bestHint g s v) :=
  (leastOf_nil hmade).foldl hs.types fun _ => in_of_mem_hintsOf hs hg

/-- The local type of a value is the least of its hints. -/
theorem leastHint_localType (hs : s.Valid) (hg : g.TypesIn s.types) (hmade : s.types.AllMade)
    (hfree : Refinable g s v) : LeastHint g s v (localType g s v) := by
  have hleast := leastOf_bestHint hs hg hmade v
  rw [localType_eq hg hfree]
  cases hbest : (bestHint g s v).1 with
  | none =>
    have hunknown : orUnknown (bestHint g s v) (g.varnode v).size =
        s.types.unknown (g.varnode v).size := by
      rw [bestHint, hleast.none hbest]
      rfl
    have hext : s.types.Extends (s.types.unknown (g.varnode v).size).table :=
      s.types.intern_extends _
    have hno (hint : Interned) :
        ¬IsHint g (s.withTypes (s.types.unknown (g.varnode v).size).table) v hint := by
      rw [isHint_iff hg hfree hext, hleast.none hbest]
      rintro ⟨h, hmem, -⟩
      cases hmem
    rw [hunknown]
    exact ⟨rfl, hext, fun hint hhint => absurd hhint (hno hint),
      fun hint hhint => absurd hhint (hno hint), Or.inr ⟨hno, rfl⟩⟩
  | some id =>
    rw [orUnknown, hbest]
    have hext := hleast.grows.extends
    refine ⟨rfl, hext, fun hint hhint => ?_, fun hint hhint => ?_, Or.inl ?_⟩
    · obtain ⟨h, hmem, rfl⟩ := (isHint_iff hg hfree hext).mp hhint
      exact hleast.settled h hmem
    · obtain ⟨h, hmem, rfl⟩ := (isHint_iff hg hfree hext).mp hhint
      rw [or_iff_not_imp_left]
      exact order_lt_of_isLE (hleast.least id hbest h hmem)
    · obtain ⟨h, hmem, hid⟩ := hleast.hinted id hbest
      exact ⟨_, (isHint_iff hg hfree hext).mpr ⟨h, hmem, rfl⟩, hid.symm⟩

/-! ## The order of the readers -/

/-- The same hints in another order lead to structurally the same type. -/
theorem LeastOf.sameType_orUnknown {t : TypeTable} {hints hints' : List Hint}
    {best best' : Option TypeId × TypeTable} (ht : t.WellFormed) (hmade : t.AllMade)
    (hbest : LeastOf t hints best) (hbest' : LeastOf t hints' best')
    (hsame : ∀ h, h ∈ hints ↔ h ∈ hints') (size : Nat) :
    t.SameType (orUnknown best size) (orUnknown best' size) := by
  cases hid : best.1 with
  | some id =>
    cases hid' : best'.1 with
    | some id' =>
      rw [orUnknown, orUnknown, hid, hid']
      exact hbest.sameType ht hmade hbest' hsame hid hid'
    | none =>
      obtain ⟨h, hmem, -⟩ := hbest.hinted id hid
      rw [hsame, hbest'.none hid'] at hmem
      cases hmem
  | none =>
    cases hid' : best'.1 with
    | some id' =>
      obtain ⟨h, hmem, -⟩ := hbest'.hinted id' hid'
      rw [← hsame, hbest.none hid] at hmem
      cases hmem
    | none =>
      have hget {u : TypeTable} (hu : u.AllMade) :
          ((u.unknown size).table.get (u.unknown size).id).toDataType =
            ⟨Atom.typeName .unknown size, size, .unknown, .atom .unknown, rfl⟩ :=
        hu.get_intern (.atom size .unknown) rfl
      rw [orUnknown, orUnknown, hid, hid']
      refine ⟨hbest.grows.extends.trans (best.2.intern_extends _),
        hbest'.grows.extends.trans (best'.2.intern_extends _), ?_, fun c hc => ?_⟩
      · rw [hget hbest.allMade, hget hbest'.allMade]
      · rw [TypeTable.shape, hget hbest.allMade] at hc
        cases hc

/-- The graph with the readers of a value in another order. -/
def reorderReaders (g : Graph) (v : VarnodeId) (readers : List OpId) : Graph :=
  g.modifyVarnode v fun node => { node with readers }

private theorem varnode_reorderReaders (hv : v < g.varnodes.size) (readers : List OpId) :
    (reorderReaders g v readers).varnode v = { g.varnode v with readers } := by
  rw [reorderReaders, Graph.varnode_modifyVarnode, if_pos ⟨rfl, hv⟩]

private theorem hintsOf_reorderReaders (hv : v < g.varnodes.size) (readers : List OpId) :
    hintsOf (reorderReaders g v readers) s v =
      ((g.varnode v).definition.map fun o => outputHint g s v (g.op o)).toList ++
        readers.filterMap (readerHint? g s v) := by
  have hsize : ((reorderReaders g v readers).varnode v).size = (g.varnode v).size := by
    rw [varnode_reorderReaders hv]
  have houtput : outputHint (reorderReaders g v readers) s v = outputHint g s v := by
    funext op
    rw [outputHint, outputHint, hsize]
  have hinput : inputHint (reorderReaders g v readers) s v = inputHint g s v := by
    funext op index
    rw [inputHint, inputHint, hsize]
    rfl
  have hreader : readerHint? (reorderReaders g v readers) s v = readerHint? g s v := by
    funext o
    rw [readerHint?, readerHint?, hinput]
    rfl
  rw [hintsOf, houtput, hreader, varnode_reorderReaders hv]
  rfl

end Around

end Transfer

namespace Routine

open Transfer

variable {r : Routine} {v : VarnodeId}

/-- The first guess at the type of a value that is not locked, and whose definition lets readers
refine it, is the least of the types in which the op that writes the value delivers it and its
readers take it, or unknown bytes if there is no such op. Its readers in another order lead to
structurally the same type. -/
theorem WellFormed.localType_leastHint (hr : r.WellFormed) {pointerSize : Nat}
    (htypes : (TypeTable.empty pointerSize).Reaches r.state.types) (hv : v < r.graph.varnodes.size)
    (hlocked : r.state.locked v = false)
    (hpasses : ∀ o ∈ (r.graph.varnode v).definition, (r.graph.op o).stopsPropagation = false) :
    LeastHint r.graph r.state v (localType r.graph r.state v) ∧
      ∀ readers : List OpId, readers.Perm (r.graph.varnode v).readers →
        r.state.types.SameType
          ⟨(localType r.graph r.state v).id, (localType r.graph r.state v).table⟩
          ⟨(localType (reorderReaders r.graph v readers) r.state v).id,
            (localType (reorderReaders r.graph v readers) r.state v).table⟩ := by
  have hvalid := hr.valid (Nat.zero_lt_of_lt hv)
  have hmade := htypes.allMade.1
  have hfree : Refinable r.graph r.state v :=
    ⟨hlocked, hpasses, fun o ho => (hr.graph.writes o v).mpr ho⟩
  refine ⟨leastHint_localType hvalid hr.mentioned hmade hfree, fun readers hperm => ?_⟩
  have hfree' : Refinable (reorderReaders r.graph v readers) r.state v := by
    refine ⟨hlocked, ?_, ?_⟩
    · rw [varnode_reorderReaders hv]
      exact hfree.passes
    · rw [varnode_reorderReaders hv]
      exact hfree.writes
  have hmentioned : (reorderReaders r.graph v readers).TypesIn r.state.types :=
    ⟨hr.mentioned.symbols, hr.mentioned.recommendations, hr.mentioned.prototype⟩
  rw [localType_eq hr.mentioned hfree, localType_eq hmentioned hfree', varnode_reorderReaders hv]
  refine (leastOf_bestHint hvalid hr.mentioned hmade v).sameType_orUnknown hvalid.types hmade
    (leastOf_bestHint hvalid hmentioned hmade v) (fun h => ?_) _
  rw [hintsOf_reorderReaders hv, hintsOf]
  exact List.Perm.mem_iff (List.Perm.append_left _ (hperm.symm.filterMap _))

/-- An integer, two pointers to it that count in different units, and unknown bytes. -/
def rivalTypes : TypeTable :=
  (TypeTable.empty 8).perform (.base 4 .int) |>.perform (.pointer 0 1) |>.perform (.pointer 0 2)
    |>.perform (.unknown 8)

private theorem reaches_rivalTypes : (TypeTable.empty 8).Reaches rivalTypes := by
  refine .call _ (.call _ (.call _ (.call _ .refl ?_) ?_) ?_) ?_
  all_goals decide +kernel

/-- A value with one of the pointers as its type is divided, negated, stepped from and returned as
the other pointer. -/
def rivalReaders : Routine :=
  let values := (Routine.empty "f" .simple 2 rivalTypes).newInput 8 ⟨1, 0⟩ |>.newConstant 8 4
    |>.newVarnode 8 ⟨1, 8⟩ |>.newVarnode 8 ⟨1, 16⟩ |>.newVarnode 8 ⟨1, 24⟩
  (values.modifyState (·.commit 0 2)).modifyGraph fun g =>
    { g with prototype := { g.prototype with outputType := some 1 } }
      |>.linkOp { opcode := .intSdiv, address := ⟨1, 0⟩, inputs := [0, 1], output := some 2 }
      |>.linkOp { opcode := .floatNeg, address := ⟨1, 1⟩, inputs := [0], output := some 3 }
      |>.linkOp { opcode := .ptrAdd, address := ⟨1, 2⟩, inputs := [0, 1, 1], output := some 4 }
      |>.linkOp { opcode := .ret, address := ⟨1, 3⟩, inputs := [1, 0], output := none }

/-- The pointers differ only in age, and the older one wins whatever the order of the readers, which
decides only in which order the integer and the floating-point number are added. -/
theorem rivalReaders_leastHint :
    rivalReaders.WellFormed ∧ (TypeTable.empty 8).Reaches rivalReaders.state.types ∧
      (localType rivalReaders.graph rivalReaders.state 0).id = 1 ∧
      (localType (reorderReaders rivalReaders.graph 0 [3, 1, 2, 0]) rivalReaders.state 0).table ≠
        (localType rivalReaders.graph rivalReaders.state 0).table ∧
      LeastHint rivalReaders.graph rivalReaders.state 0
        (localType rivalReaders.graph rivalReaders.state 0) ∧
      rivalReaders.state.types.SameType
        ⟨1, (localType rivalReaders.graph rivalReaders.state 0).table⟩
        ⟨1, (localType (reorderReaders rivalReaders.graph 0 [3, 1, 2, 0])
          rivalReaders.state 0).table⟩ := by
  have hr : rivalReaders.WellFormed := by decide +kernel
  have htypes : (TypeTable.empty 8).Reaches rivalReaders.state.types := by
    have hsame : rivalReaders.state.types = rivalTypes := by decide +kernel
    rw [hsame]
    exact reaches_rivalTypes
  have hdef : (rivalReaders.graph.varnode 0).definition = none := by decide +kernel
  have hreaders : List.Perm [3, 1, 2, 0] (rivalReaders.graph.varnode 0).readers := by decide +kernel
  have hid : (localType rivalReaders.graph rivalReaders.state 0).id = 1 := by decide +kernel
  have hid' : (localType (reorderReaders rivalReaders.graph 0 [3, 1, 2, 0])
      rivalReaders.state 0).id = 1 := by decide +kernel
  obtain ⟨hleast, hsame⟩ := hr.localType_leastHint (v := 0) htypes (by decide +kernel)
    (by decide +kernel) (by rw [hdef]; nofun)
  have hreordered := hsame [3, 1, 2, 0] hreaders
  rw [hid, hid'] at hreordered
  exact ⟨hr, htypes, hid, by decide +kernel, hleast, hreordered⟩

end Routine

end TypeRecovery
