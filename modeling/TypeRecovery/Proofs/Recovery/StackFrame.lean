import TypeRecovery.Proofs.Graph.References
import TypeRecovery.Proofs.Recovery.Monotone
import TypeRecovery.Proofs.Space

/-!
# Pointers into the frame

A pointer into the frame gives the pieces of the type behind it to the values of the frame. While
one value passes its piece on, values that come later may change, and so may those that were there
before; in the end every value that stores a piece has the piece for its type or a more specific
type. The place that a pointer points to is computed from a signed number of bytes.
-/

namespace TypeRecovery

namespace Recovery

open TypeTable TypeState

variable {g : Graph} {skip : Bool} {p q : Pass} {as : List Action} {start : UInt64}
  {pointee piece v : Nat}

/-! ## The values behind a pointer -/

/-- A value that starts within the bytes behind a pointer is found, also if the bytes run over the
end of the space. -/
theorem mem_coveredValues (hg : g.WellFormed) (hi : g.Indexed) {size : Nat}
    (hv : v < g.varnodes.size) (hspace : (g.varnode v).address.space = g.stack)
    (hstart : start ≤ (g.varnode v).address.offset)
    (hwithin : ((g.varnode v).address.offset - start).toNat < size)
    (hplace : start.toNat < g.stackSpace.extent) (hsize : size < g.stackSpace.extent) :
    v ∈ coveredValues g start size := by
  refine (hi.mem_valuesInRange hg.located).mpr ⟨hv, hspace, hstart, ?_⟩
  split
  · rfl
  · rename_i hstop
    rw [UInt64.lt_iff_toNat_lt, Space.toNat_wrap_add] at hstop
    rw [UInt64.toNat_sub_of_le _ _ hstart] at hwithin
    rw [Option.all_some, decide_eq_true_eq, UInt64.lt_iff_toNat_lt, Space.toNat_wrap_add]
    -- a range that runs over the end of the space would stop before its start
    have hend : start.toNat + size < g.stackSpace.extent := by
      apply Nat.lt_of_not_le
      intro hover
      rw [Nat.mod_eq_sub_mod hover, Nat.mod_eq_of_lt (by omega)] at hstop
      omega
    rw [Nat.mod_eq_of_lt hend]
    omega

/-- A distance within the stack space is not wrapped. -/
theorem frameDistance_of_lt
    (h : ((g.varnode v).address.offset - start).toNat < g.stackSpace.extent) :
    frameDistance g start v = ((g.varnode v).address.offset - start).toNat := by
  rw [frameDistance, Space.wrap_of_lt h]

/-! ## The pieces that values get -/

/-- What a pointee stores at a value, it stores in a later state. -/
theorem Stores.later {s s' : TypeState} (h : Stores g s start pointee v piece) (hs : s.Valid)
    (hhas : s.types.Has pointee) (hlater : s.Later s') : Stores g s' start pointee v piece where
  observable := h.observable
  unlocked := (hlater.locked v).trans h.unlocked
  entry := h.entry
  fits := by
    rw [hlater.types.extends.size hhas]
    exact h.fits
  piece := by
    rw [hlater.types.extends.exactPiece hs.types hhas]
    exact h.piece

/-- Traversals give no type to returned values. -/
theorem FlowTrace.unified_not_mem (h : FlowTrace g as) (w u : Nat) : .unified w u ∉ as :=
  fun hmem => h.isFlow _ hmem

/-- A value that had its turn has the piece that it stores or a more specific type. -/
theorem aliasValue_isLE (skip : Bool) (hg : g.WellFormed) (hp : p.state.Valid)
    (hhas : p.state.types.Has pointee) (hsize : p.state.values.size = g.varnodes.size)
    (hstores : Stores g p.state start pointee v piece) :
    ((aliasValue g skip start pointee p v).state.types.order
      ((aliasValue g skip start pointee p v).state.temporary v) piece).isLE = true := by
  have hv := Graph.WellFormed.lt_of_observable hstores.observable
  rcases aliasValue_cases g skip start pointee p v with
    ⟨piece', hstores', -, heq⟩ | ⟨heq, hnot⟩
  · cases hstores'.piece.symm.trans hstores.piece
    obtain ⟨as, hrun, hflow⟩ := propagate_trace skip hg (p.setTemporary v piece .stackAlias) hv
    have hvalid : (p.setTemporary v piece .stackAlias).state.Valid := by
      rw [Pass.state_setTemporary]
      exact hp.setTemporary (hp.types.has_exactPiece hhas hstores.piece)
    have htemp : (p.setTemporary v piece .stackAlias).state.temporary v = piece := by
      rw [Pass.state_setTemporary, temporary_setTemporary, if_pos ⟨rfl, hsize ▸ hv⟩]
    rw [heq]
    apply hrun.isLE hvalid (fun w u hu => absurd hu (hflow.unified_not_mem w u)) (.refl _)
    rw [htemp, order_self]
    rfl
  · rw [heq]
    exact isLE_of_order_ne_lt (hnot piece hstores)

/-- The actions that copy `pointee` onto the frame from `start` on, as the table says what its
pieces are. -/
def Copies (g : Graph) (t : TypeTable) (start : UInt64) (pointee : TypeId) (as : List Action) :
    Prop :=
  ∀ a ∈ as, a.IsFlow ∨ ∃ v piece, a = .aliased v piece ∧ (g.varnode v).address.space = g.stack ∧
    t.exactPiece pointee (frameDistance g start v) (g.varnode v).size = some piece

/-- Copying a pointee to the frame unifies no returned value. -/
theorem Copies.unified_not_mem {t : TypeTable} (h : Copies g t start pointee as) (w u : Nat) :
    .unified w u ∉ as := by
  intro hmem
  rcases h _ hmem with hflow | ⟨v, piece, heq, -⟩
  · exact hflow
  · cases heq

/-- A covered value is given its piece of the pointee. -/
theorem aliasValue_copies (skip : Bool) (hg : g.WellFormed) (hi : g.Indexed) {t : TypeTable}
    (ht : t.WellFormed) (hhas : t.Has pointee) (hp : p.state.Valid ∧ t.Extends p.state.types)
    {size : Nat} (hv : v ∈ coveredValues g start size) :
    ∃ as, Run g skip p as (aliasValue g skip start pointee p v) ∧ Copies g t start pointee as := by
  obtain ⟨as, hrun, rfl | ⟨piece, flow, rfl, hstores, hflow⟩⟩ :=
    aliasValue_run skip hg start ⟨hp.1, hp.2.has hhas⟩ v
  · exact ⟨[], hrun, fun _ ha => by cases ha⟩
  · refine ⟨_, hrun, ?_⟩
    intro a ha
    rcases List.mem_cons.mp ha with rfl | hlater
    · refine Or.inr ⟨v, piece, rfl, ((hi.mem_valuesInRange hg.located).mp hv).2.1, ?_⟩
      rw [← hp.2.exactPiece ht hhas]
      exact hstores.piece
    · exact Or.inl (hflow.isFlow a hlater)

/-- The covered values are given their pieces of the pointee. -/
theorem aliasValue_foldl_copies (skip : Bool) (hg : g.WellFormed) (hi : g.Indexed) {t : TypeTable}
    (ht : t.WellFormed) (hhas : t.Has pointee) (hp : p.state.Valid ∧ t.Extends p.state.types)
    {size : Nat} {todo : List VarnodeId} (htodo : ∀ v ∈ todo, v ∈ coveredValues g start size) :
    ∃ as, Run g skip p as (todo.foldl (aliasValue g skip start pointee) p) ∧
      Copies g t start pointee as :=
  foldl_trace skip (P := fun p => p.state.Valid ∧ t.Extends p.state.types)
    (K := fun _ => Copies g t start pointee) (fun _ _ ha => by cases ha)
    (fun _ _ _ _ _ h h' a ha => (List.mem_append.mp ha).elim (h a) (h' a))
    (fun _ _ _ hP hrun => ⟨hrun.valid hP.1, hP.2.trans (hrun.later hP.1).types.extends⟩)
    (fun _ hP v hv => aliasValue_copies skip hg hi ht hhas hP (htodo v hv)) hp

/-- After the values of the frame had their turns, each that stores a piece has it or a more
specific type. -/
theorem aliasValue_foldl_isLE (skip : Bool) (hg : g.WellFormed) (hi : g.Indexed)
    (hp : p.state.Valid) (hhas : p.state.types.Has pointee)
    (hsize : p.state.values.size = g.varnodes.size)
    (hstores : Stores g p.state start pointee v piece) {size : Nat}
    (hv : v ∈ coveredValues g start size) :
    let q := (coveredValues g start size).foldl (aliasValue g skip start pointee) p
    (q.state.types.order (q.state.temporary v) piece).isLE = true := by
  obtain ⟨before, after, hsplit⟩ := List.append_of_mem hv
  have hmem : ∀ w ∈ before ++ v :: after, w ∈ coveredValues g start size :=
    fun w hw => hsplit ▸ hw
  intro q
  have hq : q = after.foldl (aliasValue g skip start pointee)
      (aliasValue g skip start pointee
        (before.foldl (aliasValue g skip start pointee) p) v) := by
    rw [show q = (before ++ v :: after).foldl (aliasValue g skip start pointee) p from by
      rw [← hsplit], List.foldl_append, List.foldl_cons]
  -- the turns before that of the value, its own turn, and the turns after it are runs
  obtain ⟨as, hrun, -⟩ := aliasValue_foldl_copies skip hg hi hp.types hhas ⟨hp, .refl _⟩
    (fun w hw => hmem w (List.mem_append_left _ hw))
  generalize before.foldl (aliasValue g skip start pointee) p = m at hrun hq
  have hm := hrun.keeps_has ⟨hp, hhas⟩
  have hlater := hrun.later hp
  have hturn := aliasValue_isLE skip hg hm.1 hm.2 (hlater.size.trans hsize)
    (hstores.later hp hhas hlater)
  obtain ⟨bs, hrun', -⟩ := aliasValue_copies skip hg hi hm.1.types hm.2 ⟨hm.1, .refl _⟩ hv
  generalize aliasValue g skip start pointee m v = n at hturn hrun' hq
  have hn := hrun'.keeps_has hm
  obtain ⟨cs, hrun'', hcopies⟩ := aliasValue_foldl_copies skip hg hi hn.1.types hn.2
    ⟨hn.1, .refl _⟩ (fun w hw => hmem w (List.mem_append_right _ (List.mem_cons_of_mem v hw)))
  rw [← hq] at hrun''
  have hext := (hrun''.later hn.1).types.extends
  have hpiece : n.state.types.Has piece :=
    (hrun'.keeps_has ⟨hm.1, hlater.types.extends.has
      (hp.types.has_exactPiece hhas hstores.piece)⟩).2
  apply hrun''.isLE hn.1 (fun w u hu => absurd hu (hcopies.unified_not_mem w u)) (.refl _)
  rw [hext.order hn.1.types (hn.1.temporary v) hpiece]
  exact hturn

/-- A change through a pointer into the frame gives a value the piece of the copied type. -/
theorem Run.exactPiece_of_copies {t : TypeTable} (h : Run g skip p as q) (hp : p.state.Valid)
    (hcopies : Copies g t start pointee as) {news : List Event}
    (hnews : q.events.toList = p.events.toList ++ news) {old new : Nat}
    (hmem : .changed v old new .stackAlias ∈ news) :
    (g.varnode v).address.space = g.stack ∧
      t.exactPiece pointee (frameDistance g start v) (g.varnode v).size = some new := by
  obtain ⟨a, ha, m, hwrites⟩ := h.exists_writes hp hnews hmem
  have hcauses := hwrites.causes
  rcases hcopies a ha with hflow | ⟨w, piece, rfl, hspace, hpiece⟩
  · cases a with
    | entered root w => cases hcauses
    | offered r => cases hcauses
    | unified w u => cases hflow
    | aliased w u => cases hflow
  · obtain ⟨rfl, rfl, -⟩ := hcauses
    exact ⟨hspace, hpiece⟩

/-- A frame in units of the given number of bytes. The base register is moved down by eight bytes
to a locked pointer to a structure of an integer and a floating-point number. The last units of the
frame hold both numbers and the whole structure. -/
def topOfFrame (unit : Nat) : Routine :=
  let spaces : SpaceTable :=
    ⟨#[.constants, ⟨"ram", .processor, 8, 1, false⟩, ⟨"stack", .stack, 8, unit, false⟩]⟩
  let types := (TypeTable.empty 8).perform (.base 4 .int) |>.perform (.base 4 .float)
    |>.perform (.struct "s" 8 [⟨0, "a", 0⟩, ⟨4, "b", 1⟩]) |>.perform (.pointer 2 1)
    |>.perform (.spacebase 2 "stack") |>.perform (.pointer 4 1)
  let values := (Routine.empty "f" spaces 2 types).newInput 8 ⟨1, 0⟩
    |>.newConstant 8 0xfffffffffffffff8 |>.newVarnode 8 ⟨1, 16⟩
    |>.newInput 4 ⟨2, 0xfffffffffffffff8⟩ |>.newInput 4 ⟨2, 0xfffffffffffffffc⟩
    |>.newInput 8 ⟨2, 0xfffffffffffffff8⟩ |>.newVarnode 4 ⟨1, 24⟩ |>.newVarnode 4 ⟨1, 32⟩
    |>.newVarnode 8 ⟨1, 40⟩
  (values.modifyState fun s => (s.lock 0 5).lock 2 3).modifyGraph fun g =>
    (g.setSpaceBase 0).linkOp
        { opcode := .intAdd, address := ⟨1, 0⟩, inputs := [0, 1], output := some 2 }
      |>.linkOp { opcode := .copy, address := ⟨1, 1⟩, inputs := [3], output := some 6 }
      |>.linkOp { opcode := .copy, address := ⟨1, 2⟩, inputs := [4], output := some 7 }
      |>.linkOp { opcode := .copy, address := ⟨1, 3⟩, inputs := [5], output := some 8 }

/-- The pass over the frame in single bytes after the pointer gave its type to the frame. -/
def aliasedTop : Pass :=
  aliasReference (topOfFrame 1).graph false (topOfFrame 1).guessed (2, 0xfffffffffffffff8)

/-- A pointer to a place of the frame gives its type to the frame: every free value behind the
pointer that stores a piece of the type has the piece or a more specific type in the end, and a
value that gets a type through the pointer is a value of the frame and gets the piece that it
stores. -/
theorem aliasReference_covers (skip : Bool) (hg : g.WellFormed) (hi : g.Indexed)
    (hp : p.state.Valid) (hsize : p.state.values.size = g.varnodes.size) {pointer : VarnodeId}
    (hpointer : p.state.types.pointee? (p.state.temporary pointer) = some pointee)
    (hbase : p.state.types.metatype pointee ≠ .spacebase)
    (hknown : p.state.types.metatype pointee ≠ .unknown)
    (hplace : start.toNat < g.stackSpace.extent)
    (hsmall : p.state.types.size pointee < g.stackSpace.extent) :
    let q := aliasReference g skip p (pointer, start)
    (∀ v piece, (g.varnode v).isObservable = true → p.state.locked v = false →
        (g.varnode v).entry = none → (g.varnode v).address.space = g.stack →
        0 < (g.varnode v).size → start ≤ (g.varnode v).address.offset →
        ((g.varnode v).address.offset - start).toNat + (g.varnode v).size ≤
          p.state.types.size pointee →
        p.state.types.exactPiece pointee ((g.varnode v).address.offset - start).toNat
          (g.varnode v).size = some piece →
        q.state.temporary v = piece ∨
          q.state.types.moreSpecific (q.state.temporary v) piece = true) ∧
      ∃ news, q.events.toList = p.events.toList ++ news ∧
        ∀ v old new, .changed v old new .stackAlias ∈ news →
          (g.varnode v).address.space = g.stack ∧
            p.state.types.exactPiece pointee
              (g.stackSpace.wrap ((g.varnode v).address.offset - start)).toNat
              (g.varnode v).size = some new := by
  have hhas := hp.types.has_pointee (hp.temporary _) hpointer
  intro q
  have hq : q = (coveredValues g start (p.state.types.size pointee)).foldl
      (aliasValue g skip start pointee) p := by
    rw [show q = aliasReference g skip p (pointer, start) from rfl, aliasReference_eq skip hg hp,
      hpointer]
    exact if_neg fun h => h.elim hbase hknown
  constructor
  · intro v piece hobs hlocked hentry hspace hpos hstart hend hpiece
    have hdistance : frameDistance g start v = ((g.varnode v).address.offset - start).toNat :=
      frameDistance_of_lt (by omega)
    have hstores : Stores g p.state start pointee v piece :=
      ⟨hobs, hlocked, hentry, by rw [hdistance]; exact hend, by rw [hdistance]; exact hpiece⟩
    have hcovered := mem_coveredValues hg hi (Graph.WellFormed.lt_of_observable hobs) hspace
      hstart (by omega) hplace hsmall
    have hle := aliasValue_foldl_isLE skip hg hi hp hhas hsize hstores hcovered
    rw [← hq] at hle
    by_cases heq : q.state.temporary v = piece
    · exact Or.inl heq
    · exact Or.inr ((moreSpecific_iff ..).mpr (order_lt_of_isLE hle heq))
  · obtain ⟨as, hrun, hcopies⟩ := aliasValue_foldl_copies skip hg hi hp.types hhas
      ⟨hp, .refl _⟩ (fun w hw => hw)
    rw [← hq] at hrun
    obtain ⟨news, hnews⟩ := hrun.events_append hp
    exact ⟨news, hnews, fun v old new hmem => hrun.exactPiece_of_copies hp hcopies hnews hmem⟩

/-- The structure ends where the space does, so the values behind the pointer have no upper end.
The last number and the whole structure get their types. -/
theorem topOfFrame_covers :
    let r := topOfFrame 1
    let s := aliasedTop.state
    r.WellFormed ∧ r.graph.Indexed ∧
      r.guessed.state.types.pointee? (r.guessed.state.temporary 2) = some 2 ∧
      (s.temporary 4 = 1 ∨ s.types.moreSpecific (s.temporary 4) 1 = true) ∧
      (s.temporary 5 = 2 ∨ s.types.moreSpecific (s.temporary 5) 2 = true) ∧
      .changed 4 7 1 .stackAlias ∈ aliasedTop.events.toList ∧
      r.guessed.state.types.exactPiece 2 4 4 = some 1 := by
  have hr : (topOfFrame 1).WellFormed := by decide +kernel
  have hi : (topOfFrame 1).graph.Indexed := by decide +kernel
  have hpos : 0 < (topOfFrame 1).graph.varnodes.size := by decide +kernel
  have hpointer : (topOfFrame 1).guessed.state.types.pointee?
      ((topOfFrame 1).guessed.state.temporary 2) = some 2 := by decide +kernel
  have hplace : (0xfffffffffffffff8 : UInt64).toNat < (topOfFrame 1).graph.stackSpace.extent := by
    decide +kernel
  obtain ⟨hcovers, news, hnews, hpieces⟩ := aliasReference_covers false hr.graph hi
    (hr.guessed_later hpos).2 (hr.size_guessed hpos) hpointer (by decide +kernel)
    (by decide +kernel) hplace (by decide +kernel)
  rw [← aliasedTop] at hcovers hnews
  have hmem : .changed 4 7 1 .stackAlias ∈ aliasedTop.events.toList := by decide +kernel
  have hnew : .changed 4 7 1 .stackAlias ∈ news := by
    rw [hnews] at hmem
    exact (List.mem_append.mp hmem).resolve_left (by decide +kernel)
  have hnumber := hcovers 4 1 (by decide +kernel) (by decide +kernel) (by decide +kernel)
    (by decide +kernel) (by decide +kernel) (by decide +kernel) (by decide +kernel)
    (by decide +kernel)
  have hwhole := hcovers 5 2 (by decide +kernel) (by decide +kernel) (by decide +kernel)
    (by decide +kernel) (by decide +kernel) (by decide +kernel) (by decide +kernel)
    (by decide +kernel)
  exact ⟨hr, hi, hpointer, hnumber, hwhole, hmem, (hpieces 4 7 1 hnew).2⟩

/-! ## The places of pointers -/

/-- The signed number of bytes that an op adds to the base register: nothing for a copy, a constant
for an addition, and the product of two constants for a scaled addition, where a number is read
from the bytes of its first operand. -/
inductive FrameOffset (g : Graph) (op : Op) : Int → Prop where
  | copy : op.opcode = .copy → FrameOffset g op 0
  | added {c : Varnode} : op.opcode = .intAdd ∨ op.opcode = .ptrSub → g.constant? op 1 = some c →
      FrameOffset g op (signExtend c.address.offset.toNat c.size)
  | scaled {count scale : Varnode} : op.opcode = .ptrAdd → g.constant? op 1 = some count →
      g.constant? op 2 = some scale →
      FrameOffset g op
        (signExtend (count.address.offset.toNat * scale.address.offset.toNat) count.size)

/-- What is added to the base register is what the phase reads off the op. -/
theorem FrameOffset.eq_some {op : Op} {k : Int} (h : FrameOffset g op k) :
    frameOffset? g op = some k := by
  cases h with
  | copy hop => rw [frameOffset?, hop]
  | added hop hc =>
    rcases hop with hop | hop
    · rw [frameOffset?, hop, hc]
      rfl
    · rw [frameOffset?, hop, hc]
      rfl
  | scaled hop hcount hscale =>
    rw [frameOffset?, hop, hcount, hscale]
    dsimp only
    -- the product of words is read like the exact product
    rw [UInt64.toNat_mul]
    exact congrArg some (signExtend_mod _ _)

/-- What is added to the base register is within the range of a word, in both directions. -/
theorem FrameOffset.bounds {op : Op} {k : Int} (h : FrameOffset g op k) :
    -(UInt64.size : Int) ≤ k ∧ k < UInt64.size := by
  have hread (value size : Nat) : -(UInt64.size : Int) ≤ signExtend value size ∧
      signExtend value size < UInt64.size := by
    have hbounds := signExtend_bounds value size
    omega
  cases h with
  | copy hop => exact ⟨by decide, by decide⟩
  | added hop hc => exact hread _ _
  | scaled hop hcount hscale => exact hread _ _

/-- The readers of the base register are gone through in order. -/
theorem aliasFrame_split (skip : Bool) (p : Pass) {base : VarnodeId}
    (hbase : g.spaceBase = some base)
    (hpointer : p.state.types.isSpacebasePointer (p.state.committed base) = true)
    {front back : List OpId} {o : OpId} (hreaders : (g.varnode base).readers = front ++ o :: back)
    {reference : VarnodeId × UInt64} (ho : frameReference? g o = some reference) :
    aliasFrame g skip p =
      (back.filterMap (frameReference? g)).foldl (aliasReference g skip)
        (aliasReference g skip
          ((front.filterMap (frameReference? g)).foldl (aliasReference g skip) p) reference) := by
  rw [aliasFrame, hbase]
  dsimp only
  rw [if_pos hpointer, frameReferences, hreaders, List.filterMap_append,
    List.filterMap_cons_some ho, List.foldl_append, List.foldl_cons]

/-- A reader of the base register that adds `k` bytes to it makes its result a pointer to the place
`k / w` of the frame, `w` being the bytes of a unit, with one exception. A negative `k` is divided
as a word, so its quotient is too large by the number of units in all words, and the place is wrong
unless that number vanishes in the space. -/
theorem aliasFrame_place_iff (skip : Bool) (p : Pass) {base : VarnodeId}
    (hbase : g.spaceBase = some base)
    (hpointer : p.state.types.isSpacebasePointer (p.state.committed base) = true)
    {front back : List OpId} {o : OpId} (hreaders : (g.varnode base).readers = front ++ o :: back)
    {out : VarnodeId} (hout : (g.op o).output = some out) {k : Int} (hk : FrameOffset g (g.op o) k)
    (hpos : 0 < g.stackSpace.wordSize) (hword : g.stackSpace.wordSize < UInt32.size)
    (hdvd : (g.stackSpace.wordSize : Int) ∣ k) :
    ∃ place : UInt64,
      aliasFrame g skip p =
        (back.filterMap (frameReference? g)).foldl (aliasReference g skip)
          (aliasReference g skip
            ((front.filterMap (frameReference? g)).foldl (aliasReference g skip) p)
            (out, place)) ∧
      ((place.toNat : Int) = k / g.stackSpace.wordSize % g.stackSpace.extent ↔
        0 ≤ k ∨ g.stackSpace.extent ∣ UInt64.size / g.stackSpace.wordSize) := by
  have ho : frameReference? g o =
      some (out, g.stackSpace.wrap (g.stackSpace.unitOfByte (wordOfInt k))) := by
    rw [frameReference?, hout, hk.eq_some]
  exact ⟨_, aliasFrame_split skip p hbase hpointer hreaders ho,
    Space.toNat_wrap_unitOfByte_iff hpos (Nat.lt_trans hword (by decide)) hk.bounds hdvd⟩

/-- In units of two bytes, eight bytes below the base register are four units below it. The pointer
is taken to point to another place. -/
theorem topOfFrame_place :
    let r := topOfFrame 2
    r.graph.spaceBase = some 0 ∧ FrameOffset r.graph (r.graph.op 0) (-8) ∧
      r.graph.stackSpace.wordSize = 2 ∧
      ∃ place : UInt64,
        aliasFrame r.graph false r.guessed =
          aliasReference r.graph false r.guessed (2, place) ∧
        (place.toNat : Int) ≠ -8 / r.graph.stackSpace.wordSize % r.graph.stackSpace.extent := by
  intro r
  have hbase : r.graph.spaceBase = some 0 := by decide +kernel
  have hreaders : (r.graph.varnode 0).readers = [] ++ 0 :: [] := by decide +kernel
  have hout : (r.graph.op 0).output = some 2 := by decide +kernel
  have hconstant : r.graph.constant? (r.graph.op 0) 1 = some (r.graph.varnode 1) := by
    decide +kernel
  have hread :
      signExtend (r.graph.varnode 1).address.offset.toNat (r.graph.varnode 1).size = -8 := by
    decide +kernel
  have hk : FrameOffset r.graph (r.graph.op 0) (-8) :=
    hread ▸ .added (Or.inl (by decide +kernel)) hconstant
  obtain ⟨place, halias, hplace⟩ := aliasFrame_place_iff false r.guessed hbase
    (by decide +kernel) hreaders hout hk (by decide +kernel) (by decide +kernel)
    (by decide +kernel)
  rw [List.filterMap_nil, List.foldl_nil, List.foldl_nil] at halias
  have hwrong : ¬(0 ≤ (-8 : Int) ∨
      r.graph.stackSpace.extent ∣ UInt64.size / r.graph.stackSpace.wordSize) := by decide +kernel
  exact ⟨hbase, hk, by decide +kernel, place, halias, fun heq => hwrong (hplace.mp heq)⟩

end Recovery

end TypeRecovery
