import TypeRecovery.Proofs.Checked.DataType
import TypeRecovery.Proofs.Transfer.Local

/-!
# Checked runs of first guesses

The values, ops and spaces of a graph, what is known of its values, and the types that the ops
around a value imply for it, with everything that is read checked to exist.
-/

namespace TypeRecovery

namespace Graph

/-- The operands and the result of an op exist. -/
structure Wired (g : Graph) (op : Op) : Prop where
  /-- The operands exist. -/
  inputs : ∀ v ∈ op.inputs, v < g.varnodes.size
  /-- The result exists. -/
  output : ∀ v ∈ op.output, v < g.varnodes.size

variable {g : Graph} {o v : Nat}

/-- The ops of a well-formed graph are wired. -/
theorem WellFormed.wired (hg : g.WellFormed) (o : Nat) : g.Wired (g.op o) :=
  ⟨fun _ hv => hg.lt_of_mem_inputs hv, fun _ hv => hg.lt_of_output hv⟩

/-- The ops that are listed are wired. -/
theorem WellFormed.wired_of_mem (hg : g.WellFormed) {op : Op} (h : op ∈ g.ops) : g.Wired op := by
  obtain ⟨o, ho, rfl⟩ := Array.mem_iff_getElem.mp h
  have hop : g.op o = g.ops[o] := by rw [Graph.op, Array.getElem?_eq_getElem ho, Option.getD_some]
  exact hop ▸ hg.wired o

/-- Values are read by ops of the graph. -/
theorem WellFormed.lt_of_mem_readers (hg : g.WellFormed) (h : o ∈ (g.varnode v).readers) :
    o < g.ops.size := by
  by_contra hlt
  have hin := (hg.reads o v).mpr h
  rw [op_of_le (Nat.le_of_not_lt hlt)] at hin
  cases hin

/-- Values are written by ops of the graph. -/
theorem WellFormed.lt_of_definition (hg : g.WellFormed) (h : (g.varnode v).definition = some o) :
    o < g.ops.size := by
  by_contra hlt
  have hout := (hg.writes o v).mpr h
  rw [op_of_le (Nat.le_of_not_lt hlt)] at hout
  cases hout

end Graph

namespace Checked

open Transfer (Guess)

/-- A state on which checked runs give results: its types exist and are within bounds, and it has
one entry for each value of the graph. -/
structure Ready (g : Graph) (s : TypeState) : Prop where
  /-- Values have types that exist. -/
  valid : 0 < g.varnodes.size → s.Valid
  /-- Types are within bounds. -/
  laid : s.types.Laid g.spaces.size
  /-- The types that the graph mentions exist. -/
  mentioned : g.TypesIn s.types
  /-- Something is known of each value. -/
  count : s.values.size = g.varnodes.size
  /-- Choices are for ops that exist. -/
  choices : ∀ x ∈ s.choices, x.1.1 < g.ops.size

variable {g : Graph} {s : TypeState} {v : Nat}

/-- A state that is ready for a graph with values is valid. -/
theorem Ready.valid_of (hs : Ready g s) (hv : v < g.varnodes.size) : s.Valid :=
  hs.valid (Nat.lt_of_le_of_lt (Nat.zero_le v) hv)

/-- A state stays ready when its table grows within bounds. -/
theorem Ready.withTypes (hs : Ready g s) {t : TypeTable} (hgrows : s.types.Grows t)
    (hl : t.Laid g.spaces.size) : Ready g (s.withTypes t) where
  valid hpos := Transfer.valid_withTypes_of_grows (hs.valid hpos) hgrows
  laid := hl
  mentioned := hs.mentioned.mono hgrows.extends
  count := hs.count
  choices := hs.choices

/-! ## Values, ops and spaces -/

/-- The value at a position. -/
def varnode (g : Graph) (v : VarnodeId) : Checked Varnode := look g.varnodes v

/-- The op at a position. -/
def op (g : Graph) (o : OpId) : Checked Op := look g.ops o

/-- What is known of a value. -/
def typing (s : TypeState) (v : VarnodeId) : Checked Typing := look s.values v

/-- The committed type of a value. -/
def committed (s : TypeState) (v : VarnodeId) : Checked TypeId := return (← typing s v).committed

/-- The temporary type of a value. -/
def temporary (s : TypeState) (v : VarnodeId) : Checked TypeId := return (← typing s v).temporary

/-- Whether the type of a value is fixed. -/
def locked (s : TypeState) (v : VarnodeId) : Checked Bool := return (← typing s v).locked

/-- The space with an identifier. -/
def space (t : SpaceTable) (id : SpaceId) : Checked Space := look t.spaces id

/-- A value of the graph is looked up without a fault. -/
theorem varnode_eq (h : v < g.varnodes.size) : varnode g v = .ok (g.varnode v) := by
  rw [varnode, look_eq h, Graph.varnode, Array.getElem?_eq_getElem h, Option.getD_some]

/-- An op of the graph is looked up without a fault. -/
theorem op_eq {o : Nat} (h : o < g.ops.size) : op g o = .ok (g.op o) := by
  rw [op, look_eq h, Graph.op, Array.getElem?_eq_getElem h, Option.getD_some]

/-- What is known of a value is looked up without a fault. -/
theorem typing_eq (hs : Ready g s) (h : v < g.varnodes.size) : typing s v = .ok (s.typing v) := by
  have hlt : v < s.values.size := hs.count ▸ h
  rw [typing, look_eq hlt, TypeState.typing, Array.getElem?_eq_getElem hlt, Option.getD_some]

/-- The committed type of a value is looked up without a fault. -/
theorem committed_eq (hs : Ready g s) (h : v < g.varnodes.size) :
    committed s v = .ok (s.committed v) := by
  rw [committed, typing_eq hs h, ok_bind]
  rfl

/-- The temporary type of a value is looked up without a fault. -/
theorem temporary_eq (hs : Ready g s) (h : v < g.varnodes.size) :
    temporary s v = .ok (s.temporary v) := by
  rw [temporary, typing_eq hs h, ok_bind]
  rfl

/-- Whether a value is locked is looked up without a fault. -/
theorem locked_eq (hs : Ready g s) (h : v < g.varnodes.size) : locked s v = .ok (s.locked v) := by
  rw [locked, typing_eq hs h, ok_bind]
  rfl

/-- A space of the table is looked up without a fault. -/
theorem space_eq {t : SpaceTable} {id : Nat} (h : id < t.size) : space t id = .ok (t.get id) := by
  rw [space, look_eq h, SpaceTable.get, SpaceTable.get?, Array.getElem?_eq_getElem h,
    Option.getD_some]

/-- The value of an operand that is a constant. -/
def constant? (g : Graph) (op : Op) (index : Nat) : Checked (Option Varnode) := do
  match op.input? index with
  | some v =>
    let node ← varnode g v
    return if node.constant then some node else none
  | none => return none

/-- A constant operand of a wired op is looked up without a fault. -/
theorem constant?_eq {op : Op} (hop : g.Wired op) (index : Nat) :
    constant? g op index = .ok (g.constant? op index) := by
  rw [constant?, Graph.constant?]
  cases hv : op.input? index with
  | none => rfl
  | some v =>
    dsimp only
    rw [varnode_eq (hop.inputs v (Graph.mem_inputs_of_input? hv)), ok_bind]
    rfl

/-- Bytes per unit of ordinary data; single bytes when there is no data space. -/
def dataWordSize (t : SpaceTable) : Checked Nat := do
  match t.dataSpace? with
  | some id => return (← space t id).wordSize
  | none => return 1

/-- The unit of the data space is found without a fault. -/
theorem dataWordSize_eq (t : SpaceTable) : dataWordSize t = .ok t.dataWordSize := by
  rw [dataWordSize, SpaceTable.dataWordSize]
  cases h : t.dataSpace? with
  | none => rfl
  | some id =>
    have hlt : id < t.size := (Array.findIdx?_eq_some_iff_getElem.mp h).1
    dsimp only
    rw [space_eq hlt, ok_bind]
    rfl

/-! ## What an op implies -/

/-- The type of a returned value of `size` bytes. -/
def returnedType (g : Graph) (types : TypeTable) (size : Nat) : Checked Interned := do
  match g.prototype.outputType with
  | some t =>
    let returned ← type types t
    if returned.metatype ≠ .void ∧ returned.size = size then return ⟨t, types⟩
    else return types.unknown size
  | none => return types.unknown size

/-- The type in which an op takes the operand at a position. -/
def localInput (g : Graph) (s : TypeState) (op : Op) (index : Nat) : Checked Interned := do
  match op.input? index with
  | none => return s.types.unknown 1
  | some v =>
    let node ← varnode g v
    if op.opcode.isPointerStep ∧ index = 0 then return ⟨← committed s v, s.types⟩
    else if op.opcode = .ptrSub then return s.types.unknown node.size
    else if op.opcode = .ret ∧ 0 < index then returnedType g s.types node.size
    else if op.opcode.isShift ∧ index = 1 then return s.types.base node.size .int
    else return s.types.base node.size op.opcode.operandMetatype

/-- The type in which an op delivers its result. -/
def localOutput (g : Graph) (s : TypeState) (op : Op) : Checked Interned := do
  match op.output with
  | none => return s.types.void
  | some v =>
    let node ← varnode g v
    if op.opcode.isPointerStep then return ⟨← committed s v, s.types⟩
    else return s.types.base node.size op.opcode.resultMetatype

/-- The more specific of the guess so far and the type in which a reader takes the value. -/
def refineByReader (g : Graph) (s : TypeState) (v : VarnodeId) (best : Option TypeId × TypeTable)
    (reader : OpId) : Checked (Option TypeId × TypeTable) := do
  let op ← op g reader
  match op.slotOf? v with
  | none => return best
  | some index =>
    let hint ← localInput g (s.withTypes best.2) op index
    match best.1 with
    | none => return (some hint.id, hint.table)
    | some current =>
      let better ← moreSpecific hint.table hint.id current
      return (some (if better then hint.id else current), hint.table)

/-- The most specific type in which readers take a value, starting from a guess. -/
def refineByReaders (g : Graph) (s : TypeState) (v : VarnodeId)
    (start : Option TypeId × TypeTable) : Checked Interned := do
  let node ← varnode g v
  let best ← node.readers.foldlM (refineByReader g s v) start
  match best.1 with
  | some t => return ⟨t, best.2⟩
  | none => return best.2.unknown node.size

/-- The type implied for a value by the ops that write and read it. -/
def localType (g : Graph) (s : TypeState) (v : VarnodeId) : Checked Guess := do
  let node ← varnode g v
  if ← locked s v then return ⟨← committed s v, false, s.types⟩
  else
    match node.definition with
    | none =>
      let t ← refineByReaders g s v (none, s.types)
      return ⟨t.id, false, t.table⟩
    | some o =>
      let op ← op g o
      let written ← localOutput g s op
      if op.stopsPropagation then return ⟨written.id, true, written.table⟩
      else
        let t ← refineByReaders g s v (some written.id, written.table)
        return ⟨t.id, false, t.table⟩

/-- The type of a returned value is found without a fault. -/
theorem returnedType_eq (hs : Ready g s) {size : Nat} (hsize : size < UInt32.size) :
    returnedType g s.types size = .ok (Transfer.returnedType g s.types size) ∧
      (Transfer.returnedType g s.types size).table.Laid g.spaces.size := by
  have hbytes := hs.laid.atom hsize .unknown
  rw [returnedType, Transfer.returnedType]
  cases hp : g.prototype.outputType with
  | none => exact ⟨rfl, hbytes⟩
  | some t =>
    dsimp only
    rw [type_eq (hs.mentioned.prototype t hp), ok_bind]
    change (if s.types.metatype t ≠ .void ∧ s.types.size t = size then _ else _) = _ ∧ _
    split
    · exact ⟨rfl, hs.laid⟩
    · exact ⟨rfl, hbytes⟩

/-- What an op says of an operand is found without a fault. -/
theorem localInput_eq (hi : g.Intact) (hs : Ready g s) {op : Op} (hop : g.Wired op) (index : Nat) :
    localInput g s op index = .ok (Transfer.localInput g s op index) ∧
      (Transfer.localInput g s op index).table.Laid g.spaces.size := by
  rw [localInput, Transfer.localInput]
  cases hv : op.input? index with
  | none => exact ⟨rfl, hs.laid.atom (by decide) .unknown⟩
  | some v =>
    have hlt := hop.inputs v (Graph.mem_inputs_of_input? hv)
    have hsize := hi.valueSizes v hlt
    dsimp only
    rw [varnode_eq hlt, ok_bind]
    split
    · rw [committed_eq hs hlt, ok_bind]
      exact ⟨rfl, hs.laid⟩
    · split
      · exact ⟨rfl, hs.laid.atom hsize .unknown⟩
      · split
        · exact returnedType_eq hs hsize
        · split
          · exact ⟨rfl, hs.laid.atom hsize _⟩
          · exact ⟨rfl, hs.laid.atom hsize _⟩

/-- What an op says of its result is found without a fault. -/
theorem localOutput_eq (hi : g.Intact) (hs : Ready g s) {op : Op} (hop : g.Wired op) :
    localOutput g s op = .ok (Transfer.localOutput g s op) ∧
      (Transfer.localOutput g s op).table.Laid g.spaces.size := by
  rw [localOutput, Transfer.localOutput]
  cases hv : op.output with
  | none => exact ⟨rfl, hs.laid.void⟩
  | some v =>
    have hlt := hop.output v hv
    dsimp only
    rw [varnode_eq hlt, ok_bind]
    split
    · rw [committed_eq hs hlt, ok_bind]
      exact ⟨rfl, hs.laid⟩
    · exact ⟨rfl, hs.laid.atom (hi.valueSizes v hlt) _⟩

/-- A guess in the making: the table grew within bounds, and the guess, if there is one, exists. -/
structure Refines (g : Graph) (s : TypeState) (best : Option TypeId × TypeTable) : Prop where
  /-- The table grew by atoms and pointers. -/
  grows : s.types.Grows best.2
  /-- The table is within bounds. -/
  laid : best.2.Laid g.spaces.size
  /-- The guess exists. -/
  has : Transfer.HoldsCandidate best

private theorem refineByReader_eq (hg : g.WellFormed) (hi : g.Intact) (hs : Ready g s)
    (hv : v < g.varnodes.size) {reader : Nat} (hreader : reader < g.ops.size)
    {best : Option TypeId × TypeTable} (hbest : Refines g s best) :
    refineByReader g s v best reader = .ok (Transfer.refineByReader g s v best reader) ∧
      Refines g s (Transfer.refineByReader g s v best reader) := by
  have hvalid := hs.valid_of hv
  obtain ⟨hgrows, hhas⟩ := Transfer.refineByReader_grows hvalid hs.mentioned hbest.grows hbest.has
    v reader
  have hready := hs.withTypes hbest.grows hbest.laid
  have hgives (index : Nat) := Transfer.gives_localInput (hready.valid_of hv) hready.mentioned
    (g.op reader) index
  suffices h : refineByReader g s v best reader = .ok (Transfer.refineByReader g s v best reader) ∧
      (Transfer.refineByReader g s v best reader).2.Laid g.spaces.size from
    ⟨h.1, hbest.grows.trans hgrows, h.2, hhas⟩
  clear hgrows hhas
  rw [refineByReader, op_eq hreader, ok_bind, Transfer.refineByReader]
  cases (g.op reader).slotOf? v with
  | none => exact ⟨rfl, hbest.laid⟩
  | some index =>
    obtain ⟨hok, hlaid⟩ := localInput_eq hi hready (hg.wired reader) index
    have hgives := hgives index
    dsimp only
    rw [hok, ok_bind]
    generalize Transfer.localInput g (s.withTypes best.2) (g.op reader) index = hint
      at hlaid hgives ⊢
    cases hcurrent : best.1 with
    | none => exact ⟨rfl, hlaid⟩
    | some current =>
      have hold : hint.table.Has current := hgives.grows.extends.has (hbest.has current hcurrent)
      have hwf : hint.table.WellFormed := hgives.grows.wellFormed (hready.valid_of hv).types
      dsimp only
      rw [moreSpecific_eq hwf hgives.has hold, ok_bind]
      exact ⟨rfl, hlaid⟩

private theorem refineByReaders_eq (hg : g.WellFormed) (hi : g.Intact) (hs : Ready g s)
    (hv : v < g.varnodes.size) {start : Option TypeId × TypeTable} (hstart : Refines g s start) :
    refineByReaders g s v start = .ok (Transfer.refineByReaders g s v start) ∧
      (Transfer.refineByReaders g s v start).table.Laid g.spaces.size := by
  obtain ⟨hok, hbest⟩ := foldlM_eq (P := Refines g s) (f := refineByReader g s v)
    (k := Transfer.refineByReader g s v) (l := (g.varnode v).readers) hstart
    fun reader hreader best hbest =>
      refineByReader_eq hg hi hs hv (hg.lt_of_mem_readers hreader) hbest
  rw [refineByReaders, varnode_eq hv, ok_bind, hok, ok_bind, Transfer.refineByReaders]
  generalize (g.varnode v).readers.foldl (Transfer.refineByReader g s v) start = best at hbest ⊢
  cases hguess : best.1 with
  | some t => exact ⟨rfl, hbest.laid⟩
  | none => exact ⟨rfl, hbest.laid.atom (hi.valueSizes v hv) .unknown⟩

/-- The local type of a value is found without a fault. -/
theorem localType_eq (hg : g.WellFormed) (hi : g.Intact) (hs : Ready g s)
    (hv : v < g.varnodes.size) :
    localType g s v = .ok (Transfer.localType g s v) ∧
      (Transfer.localType g s v).table.Laid g.spaces.size := by
  have hvalid := hs.valid_of hv
  rw [localType, varnode_eq hv, ok_bind, locked_eq hs hv, ok_bind, Transfer.localType]
  split
  · rw [committed_eq hs hv, ok_bind]
    exact ⟨rfl, hs.laid⟩
  · cases ho : (g.varnode v).definition with
    | none =>
      have hstart : Refines g s (none, s.types) := ⟨.refl, hs.laid, fun _ hid => by cases hid⟩
      obtain ⟨hok, hlaid⟩ := refineByReaders_eq hg hi hs hv hstart
      dsimp only
      rw [hok, ok_bind]
      exact ⟨rfl, hlaid⟩
    | some o =>
      obtain ⟨hok, hlaid⟩ := localOutput_eq hi hs (hg.wired o)
      have hgives := Transfer.gives_localOutput (g := g) hvalid (g.op o)
      dsimp only
      rw [op_eq (hg.lt_of_definition ho), ok_bind, hok, ok_bind]
      split
      · exact ⟨rfl, hlaid⟩
      · have hstart : Refines g s
            (some (Transfer.localOutput g s (g.op o)).id,
              (Transfer.localOutput g s (g.op o)).table) := by
          refine ⟨hgives.grows, hlaid, ?_⟩
          rintro _ ⟨⟩
          exact hgives.has
        obtain ⟨hok, hlaid⟩ := refineByReaders_eq hg hi hs hv hstart
        rw [hok, ok_bind]
        exact ⟨rfl, hlaid⟩

end Checked

end TypeRecovery
