import Mathlib.Algebra.Group.Nat.Defs
import TypeRecovery.Proofs.Checked.Flow
import TypeRecovery.Proofs.Recovery.Round
import TypeRecovery.Proofs.Space

/-!
# Checked runs of the phases of a round

Recommendations, first guesses, returned values and the frame. The sums that place values of the
frame within the bytes behind a pointer fit 64 bits: in a space with addresses of fewer than eight
bytes every distance is short, and in any other space a value in the range starts within the bytes
themselves.
-/

namespace TypeRecovery

namespace Checked

variable {g : Graph} {s : TypeState} {p : Pass} {v o t : Nat}

/-! ## Recommendations -/

/-- The values with keys from `lower` on and below `upper`, which must not be before `lower`. -/
def valuesBetween (g : Graph) (lower : LocationKey) (upper : UpperBound) :
    Checked (List VarnodeId) :=
  if (lower.compare upper.key).isLE then .ok (g.valuesBetween lower upper) else .error .reversed

/-- The values of a space with offsets from `start` up to, and not including, `stop`, in location
order. -/
def valuesInRange (g : Graph) (space : SpaceId) (start : UInt64) (stop : Option UInt64) :
    Checked (List VarnodeId) :=
  match stop with
  | some stop =>
    if stop ≤ start then .ok []
    else valuesBetween g (.least space start) (.excluded (.least space stop))
  | none => valuesBetween g (.least space start) (.included (.greatest space))

/-- The first input in location order with an address and size, among the values that start there.
-/
def findInput? (g : Graph) (size : Nat) (address : Address) : Checked (Option VarnodeId) := do
  let values ← valuesInRange g address.space address.offset (successor? address.offset)
  values.findM? fun v => do
    let node ← varnode g v
    return node.input && node.size = size

/-- Fix the type of an unlocked input for which a type was recommended. -/
def applyRecommendation (g : Graph) (s : TypeState × Nat) (r : Recommendation) :
    Checked (TypeState × Nat) := do
  match ← findInput? g (← size s.1.types r.type) r.address with
  | none => return s
  | some v => if ← locked s.1 v then return s else return (s.1.lock v r.type, s.2 + 1)

/-- Apply all recommendations in order. -/
def applyRecommendations (g : Graph) (s : TypeState) : Checked (TypeState × Nat) :=
  g.recommendations.foldlM (applyRecommendation g) (s, 0)

/-- The bounds of a range are in order: a range that would stop where it starts or before is not
looked up. -/
theorem valuesInRange_eq (g : Graph) (space : SpaceId) (start : UInt64) (stop : Option UInt64) :
    valuesInRange g space start stop = .ok (g.valuesInRange space start stop) := by
  cases stop with
  | none =>
    have hle : ((LocationKey.least space start).compare (.greatest space)).isLE = true :=
      LocationKey.compare_greatest_isLE_iff.mpr (Nat.le_refl space)
    exact if_pos hle
  | some stop =>
    rw [valuesInRange, Graph.valuesInRange]
    split
    · rfl
    · rename_i hstop
      have hle : ((LocationKey.least space start).compare (.least space stop)).isLE = true :=
        LocationKey.least_isLE_iff.mpr
          (Or.inr ⟨rfl, UInt64.le_of_lt (UInt64.not_le.mp hstop)⟩)
      exact if_pos hle

private theorem findInput?_eq (hg : g.WellFormed) (size : Nat) (address : Address) :
    findInput? g size address = .ok (g.findInput? size address) := by
  rw [findInput?, valuesInRange_eq, ok_bind]
  refine findM?_eq fun v hv => ?_
  obtain ⟨l, hl, -, rfl⟩ := Graph.mem_valuesInRange.mp hv
  rw [varnode_eq ((hg.located l.id).mp (List.mem_map_of_mem hl)), ok_bind]
  rfl

private theorem applyRecommendation_eq (hg : g.WellFormed) {s : TypeState × Nat} (hs : Ready g s.1)
    {r : Recommendation} (hr : r ∈ g.recommendations) :
    applyRecommendation g s r = .ok (Recovery.applyRecommendation g s r) ∧
      Ready g (Recovery.applyRecommendation g s r).1 := by
  have hhas := hs.mentioned.recommendations r hr
  rw [applyRecommendation, size_eq hhas, ok_bind, findInput?_eq hg, ok_bind,
    Recovery.applyRecommendation]
  cases hv : g.findInput? (s.1.types.size r.type) r.address with
  | none => exact ⟨rfl, hs⟩
  | some v =>
    dsimp only
    rw [locked_eq hs (Recovery.lt_of_findInput? hg hv), ok_bind]
    split
    · exact ⟨rfl, hs⟩
    · exact ⟨rfl, hs.lock hhas v⟩

/-- Recommendations are applied without a fault. -/
theorem applyRecommendations_eq (hg : g.WellFormed) (hs : Ready g s) :
    applyRecommendations g s = .ok (Recovery.applyRecommendations g s) ∧
      Ready g (Recovery.applyRecommendations g s).1 :=
  foldlM_eq (P := fun x : TypeState × Nat => Ready g x.1) hs
    fun _ hr _ hx => applyRecommendation_eq hg hx hr

/-! ## First guesses -/

/-- The piece of a symbol of fixed type that an unlocked value stores. -/
def symbolPiece? (g : Graph) (s : TypeState) (v : VarnodeId) : Checked (Option TypeId) := do
  let node ← varnode g v
  match node.entry with
  | none => return none
  | some e =>
    let entry ← look g.entries e
    let symbol ← look g.symbols entry.symbol
    let offset := (node.address.offset - entry.address.offset + UInt64.ofNat entry.offset).toNat
    if symbol.typeLocked ∧ ¬(← locked s v) ∧ offset < UInt32.size then
      match ← exactPiece s.types symbol.type offset node.size with
      | none => return none
      | some piece =>
        let metatype ← metatype s.types piece
        return if metatype ≠ .unknown then some piece else none
    else return none

/-- The first guess of a round at the type of a value. -/
def seedType (g : Graph) (s : TypeState) (v : VarnodeId) : Checked Transfer.Guess := do
  match ← symbolPiece? g s v with
  | some t => return ⟨t, false, s.types⟩
  | none => localType g s v

/-- Replace the temporary type of a value by the first guess. -/
def seedValue (g : Graph) (p : Pass) (v : VarnodeId) : Checked Pass := do
  let guess ← seedType g p.state v
  let s := p.state.withTypes guess.table
  let s := if guess.blocks then s.block v else s
  setTemporary { p with state := s } v guess.id .seed

/-- The values that take part in type recovery, in location order. -/
def observables (g : Graph) : Checked (List VarnodeId) :=
  filter (fun v => return (← varnode g v).isObservable) g.byLocation

/-- Guess the types of all observable values. -/
def seedAll (g : Graph) (p : Pass) : Checked Pass := do (← observables g).foldlM (seedValue g) p

/-- Push the types of all observable values. -/
def propagateAll (g : Graph) (skipMerges : Bool) (p : Pass) : Checked Pass := do
  (← observables g).foldlM (propagate g skipMerges) p

private theorem symbolPiece?_eq (hi : g.Intact) (hs : Ready g s) (hv : v < g.varnodes.size) :
    symbolPiece? g s v = .ok (Recovery.symbolPiece? g s v) := by
  have hvalid := hs.valid_of hv
  rw [symbolPiece?, varnode_eq hv, ok_bind, Recovery.symbolPiece?]
  cases he : (g.varnode v).entry with
  | none => rfl
  | some e =>
    have hentry := hi.valueEntries v hv e he
    have hsymbol := hi.entrySymbols _ (Array.getElem_mem hentry)
    dsimp only [Option.bind_some]
    rw [look_eq hentry, ok_bind, look_eq hsymbol, ok_bind, locked_eq hs hv, ok_bind,
      Array.getElem?_eq_getElem hentry]
    dsimp only
    rw [Array.getElem?_eq_getElem hsymbol]
    dsimp only
    split
    · have hhas := hs.mentioned.symbols _ (Array.getElem_mem hsymbol)
      rw [exactPiece_eq hvalid.types hs.laid hhas, ok_bind]
      cases hpiece : s.types.exactPiece _ _ _ with
      | none => rfl
      | some piece =>
        dsimp only
        rw [metatype_eq (hvalid.types.has_exactPiece hhas hpiece), ok_bind, Option.filter_some]
        simp only [decide_eq_true_eq]
        rfl
    · rfl

/-- The first guess at the type of a value is made without a fault. -/
theorem seedType_eq (hg : g.WellFormed) (hi : g.Intact) (hs : Ready g s)
    (hv : v < g.varnodes.size) :
    seedType g s v = .ok (Recovery.seedType g s v) ∧
      (Recovery.seedType g s v).table.Laid g.spaces.size := by
  rw [seedType, symbolPiece?_eq hi hs hv, ok_bind, Recovery.seedType]
  cases Recovery.symbolPiece? g s v with
  | some t => exact ⟨rfl, hs.laid⟩
  | none => exact localType_eq hg hi hs hv

private theorem seedValue_eq (hg : g.WellFormed) (hi : g.Intact) (hs : Ready g p.state)
    (hv : v < g.varnodes.size) :
    seedValue g p v = .ok (Recovery.seedValue g p v) ∧
      Ready g (Recovery.seedValue g p v).state := by
  obtain ⟨hok, hlaid⟩ := seedType_eq hg hi hs hv
  have hgives := Recovery.gives_seedType (hs.valid_of hv) hs.mentioned v
  rw [Recovery.state_seedValue, seedValue, hok, ok_bind, Recovery.seedValue]
  generalize Recovery.seedType g p.state v = guess at hlaid hgives ⊢
  have hgrown : Ready g (p.state.withTypes guess.table) := hs.withTypes hgives.grows hlaid
  have hguessed : Ready g (Recovery.guessedState p.state v guess) := by
    rw [Recovery.guessedState]
    split
    · exact hgrown.block v
    · exact hgrown
  have hhas : (Recovery.guessedState p.state v guess).types.Has guess.id := by
    rw [Recovery.types_guessedState]
    exact hgives.has
  exact ⟨setTemporary_eq hguessed hv guess.id .seed, hguessed.setTemporary hhas v⟩

/-- The observable values are found without a fault. -/
theorem observables_eq (hg : g.WellFormed) : observables g = .ok g.observables := by
  refine filter_eq fun v hv => ?_
  rw [varnode_eq ((hg.located v).mp hv), ok_bind]
  rfl

/-- The observable values are values of the graph. -/
theorem lt_of_mem_observables (hg : g.WellFormed) (hv : v ∈ g.observables) :
    v < g.varnodes.size :=
  (hg.located v).mp (Graph.mem_observables.mp hv).1

/-- The first guesses are made without a fault. -/
theorem seedAll_eq (hg : g.WellFormed) (hi : g.Intact) (hs : Ready g p.state) :
    seedAll g p = .ok (Recovery.seedAll g p) ∧ Ready g (Recovery.seedAll g p).state := by
  rw [seedAll, observables_eq hg, ok_bind]
  exact foldlM_eq (P := fun p : Pass => Ready g p.state) hs
    fun _ hv _ hp => seedValue_eq hg hi hp (lt_of_mem_observables hg hv)

/-- The types of all values are pushed without a fault. -/
theorem propagateAll_eq (hg : g.WellFormed) (hi : g.Intact) (skip : Bool) (hs : Ready g p.state) :
    propagateAll g skip p = .ok (Recovery.propagateAll g skip p) ∧
      Ready g (Recovery.propagateAll g skip p).state := by
  rw [propagateAll, observables_eq hg, ok_bind]
  exact foldlM_eq (P := fun p : Pass => Ready g p.state) hs
    fun _ hv _ hp => propagate_eq hg hi skip hp (lt_of_mem_observables hg hv)

/-- What a run of the pass needs: a state that is ready, and a type that exists. -/
def Offers (g : Graph) (t : TypeId) (p : Pass) : Prop := Ready g p.state ∧ p.state.types.Has t

/-- Replace the temporary type of a value by a type that exists, and push it on. -/
theorem propagate_setTemporary_eq (hg : g.WellFormed) (hi : g.Intact) (skip : Bool)
    (hp : Ready g p.state) (ht : p.state.types.Has t) (hv : v < g.varnodes.size) (cause : Cause) :
    (do propagate g skip (← setTemporary p v t cause) v) =
        .ok (Recovery.propagate g skip (p.setTemporary v t cause) v) ∧
      Ready g (Recovery.propagate g skip (p.setTemporary v t cause) v).state := by
  rw [setTemporary_eq hp hv, ok_bind]
  refine propagate_eq hg hi skip ?_ hv
  rw [Pass.state_setTemporary]
  exact hp.setTemporary ht v

/-! ## Returned values -/

/-- The ops that return from the function, in order. -/
def returnOps (g : Graph) : Checked (List OpId) :=
  filter (fun o => return (← op g o).opcode = .ret) (List.range g.ops.size)

/-- The values returned by live, ordinary returns, in order. -/
def returnedValues (g : Graph) : Checked (List VarnodeId) := do
  filterMap (fun o => do
    let op ← op g o
    return if op.dead || op.halt ≠ .normal then none else op.input? 1) (← returnOps g)

/-- The position of the value with the most specific temporary type, the first one on ties. The
values from position `index` on are left, and `best` is the choice among those before. -/
def mostSpecificFrom (s : TypeState) (values : List VarnodeId) :
    Nat → Option Nat → List VarnodeId → Checked (Option Nat)
  | _, best, [] => .ok best
  | index, none, _ :: rest => mostSpecificFrom s values (index + 1) (some index) rest
  | index, some b, v :: rest => do
    let chosen ← pick values b
    if ← moreSpecific s.types (← temporary s v) (← temporary s chosen) then
      mostSpecificFrom s values (index + 1) (some index) rest
    else mostSpecificFrom s values (index + 1) (some b) rest

/-- Give one returned value the type of the canonical one and push it on. -/
def unifyReturn (g : Graph) (skipMerges : Bool) (type : TypeId) (size : Nat) (p : Pass)
    (v : VarnodeId) : Checked Pass := do
  let node ← varnode g v
  if node.size ≠ size ∨ (← locked p.state v) then return p
  else if (← metatype p.state.types type) = .bool ∧ 1 < node.mask then return p
  else if (← temporary p.state v) = type then return p
  else propagate g skipMerges (← setTemporary p v type .unifiedReturn) v

/-- Give all returned values of one size the most specific type among them. -/
def unifyReturns (g : Graph) (skipMerges : Bool) (p : Pass) : Checked Pass := do
  if g.prototype.outputLocked then return p
  else
    let values ← returnedValues g
    match ← mostSpecificFrom p.state values 0 none values with
    | none => return p
    | some canonical =>
      let v ← pick values canonical
      let type ← temporary p.state v
      let node ← varnode g v
      (values.eraseIdx canonical).foldlM (unifyReturn g skipMerges type node.size) p

private theorem returnOps_eq (g : Graph) : returnOps g = .ok g.returnOps := by
  refine filter_eq fun o ho => ?_
  rw [op_eq (List.mem_range.mp ho), ok_bind]
  rfl

private theorem returnedValues_eq (g : Graph) :
    returnedValues g = .ok (Recovery.returnedValues g) := by
  rw [returnedValues, returnOps_eq, ok_bind]
  refine filterMap_eq fun o ho => ?_
  rw [op_eq (List.mem_range.mp (List.mem_filter.mp ho).1), ok_bind]
  rfl

private theorem lt_of_mem_returnedValues (hg : g.WellFormed) (hv : v ∈ Recovery.returnedValues g) :
    v < g.varnodes.size := by
  obtain ⟨o, -, hin⟩ := Recovery.mem_inputs_of_mem_returnedValues hv
  exact hg.lt_of_mem_inputs hin

/-- The choice made so far is the value at its position. -/
theorem mostSpecificFrom_eq (hs : Ready g s) {values : List VarnodeId}
    (hvalues : ∀ v ∈ values, v < g.varnodes.size) (before : List VarnodeId)
    {rest : List VarnodeId} (hsplit : values = before ++ rest) (best : Option (Nat × VarnodeId))
    (hbest : ∀ b ∈ best, values[b.1]? = some b.2) :
    mostSpecificFrom s values before.length (best.map (·.1)) rest =
        .ok ((Recovery.mostSpecificFrom s before.length best rest).map (·.1)) ∧
      ∀ b ∈ Recovery.mostSpecificFrom s before.length best rest, values[b.1]? = some b.2 := by
  induction rest generalizing before best with
  | nil => cases best <;> exact ⟨rfl, hbest⟩
  | cons v rest ih =>
    have hnext : values = (before ++ [v]) ++ rest := by rw [hsplit]; simp
    have hlength : (before ++ [v]).length = before.length + 1 := by simp
    have hnew : ∀ b ∈ some (before.length, v), values[b.1]? = some b.2 := by
      rintro b ⟨⟩
      rw [hsplit]
      simp
    have hkeep := ih _ hnext best hbest
    have htake := ih _ hnext _ hnew
    rw [hlength] at hkeep htake
    cases best with
    | none => exact htake
    | some b =>
      have hchosen := hbest b rfl
      have hv : v < g.varnodes.size := hvalues v (by rw [hsplit]; simp)
      have hb : b.2 < g.varnodes.size := hvalues b.2 (List.mem_of_getElem? hchosen)
      have hvalid := hs.valid_of hv
      simp only [Option.map_some] at hkeep htake ⊢
      rw [mostSpecificFrom, pick_eq hchosen, ok_bind, temporary_eq hs hv, ok_bind,
        temporary_eq hs hb, ok_bind,
        moreSpecific_eq hvalid.types (hvalid.temporary v) (hvalid.temporary b.2), ok_bind,
        Recovery.mostSpecificFrom]
      split
      · exact htake
      · exact hkeep

private theorem mostSpecific_eq (hs : Ready g s) {values : List VarnodeId}
    (hvalues : ∀ v ∈ values, v < g.varnodes.size) :
    mostSpecificFrom s values 0 none values =
        .ok ((Recovery.mostSpecificFrom s 0 none values).map (·.1)) ∧
      ∀ b ∈ Recovery.mostSpecificFrom s 0 none values, values[b.1]? = some b.2 :=
  mostSpecificFrom_eq hs hvalues [] rfl none fun _ hb => by cases hb

/-- A returned value is unified without a fault. -/
theorem unifyReturn_eq (hg : g.WellFormed) (hi : g.Intact) (skip : Bool) (hp : Offers g t p)
    (hv : v ∈ Recovery.returnedValues g) (size : Nat) :
    unifyReturn g skip t size p v = .ok (Recovery.unifyReturn g skip t size p v) ∧
      Offers g t (Recovery.unifyReturn g skip t size p v) := by
  obtain ⟨hs, ht⟩ := hp
  have hlt := lt_of_mem_returnedValues hg hv
  -- what the step leaves is the end of a run, so the type still exists
  obtain ⟨as, hrun, -⟩ := Recovery.unifyReturn_trace skip hg ht hv size
  have hkept := (hrun.keeps_has ⟨hs.valid_of hlt, ht⟩).2
  suffices h : unifyReturn g skip t size p v = .ok (Recovery.unifyReturn g skip t size p v) ∧
      Ready g (Recovery.unifyReturn g skip t size p v).state from ⟨h.1, h.2, hkept⟩
  clear hrun hkept
  rw [unifyReturn, varnode_eq hlt, ok_bind, locked_eq hs hlt, ok_bind, Recovery.unifyReturn]
  split
  · exact ⟨rfl, hs⟩
  · rw [metatype_eq ht, ok_bind]
    split
    · exact ⟨rfl, hs⟩
    · rw [temporary_eq hs hlt, ok_bind]
      split
      · exact ⟨rfl, hs⟩
      · exact propagate_setTemporary_eq hg hi skip hs ht hlt .unifiedReturn

/-- The returned values are unified without a fault. -/
theorem unifyReturns_eq (hg : g.WellFormed) (hi : g.Intact) (skip : Bool) (hs : Ready g p.state) :
    unifyReturns g skip p = .ok (Recovery.unifyReturns g skip p) ∧
      Ready g (Recovery.unifyReturns g skip p).state := by
  obtain ⟨hok, hchosen⟩ := mostSpecific_eq hs fun v hv => lt_of_mem_returnedValues hg hv
  rw [unifyReturns, Recovery.unifyReturns]
  split
  · exact ⟨rfl, hs⟩
  · rw [returnedValues_eq, ok_bind, hok, ok_bind]
    cases hbest : Recovery.mostSpecificFrom p.state 0 none (Recovery.returnedValues g) with
    | none => exact ⟨rfl, hs⟩
    | some best =>
      obtain ⟨canonical, v⟩ := best
      have hpick := hchosen _ hbest
      have hlt := lt_of_mem_returnedValues hg (List.mem_of_getElem? hpick)
      simp only [Option.map_some]
      rw [pick_eq hpick, ok_bind, temporary_eq hs hlt, ok_bind, varnode_eq hlt, ok_bind]
      obtain ⟨hok, hready⟩ := foldlM_eq (P := Offers g (p.state.temporary v))
        (l := (Recovery.returnedValues g).eraseIdx canonical)
        ⟨hs, (hs.valid_of hlt).temporary v⟩ fun w hw q hq =>
          unifyReturn_eq hg hi skip hq (List.mem_of_mem_eraseIdx hw) (g.varnode v).size
      exact ⟨hok, hready.1⟩

/-! ## The frame -/

/-- The quotient of two words. -/
def div (a b : UInt64) : Checked UInt64 := if b = 0 then .error .zeroDivisor else .ok (a / b)

/-- The address of the unit that holds a byte. -/
def unitOfByte (x : Space) (offset : UInt64) : Checked UInt64 :=
  if x.wordSize ≤ 1 then .ok offset else div offset (UInt64.ofNat x.wordSize)

/-- The signed byte offset that a reader of the base register adds to it. -/
def frameOffset? (g : Graph) (op : Op) : Checked (Option Int) := do
  match op.opcode with
  | .copy => return some 0
  | .intAdd | .ptrSub =>
    return (← constant? g op 1).map fun c => signExtend c.address.offset.toNat c.size
  | .ptrAdd =>
    match ← constant? g op 1, ← constant? g op 2 with
    | some count, some scale =>
      return some (signExtend (count.address.offset * scale.address.offset).toNat count.size)
    | _, _ => return none
  | _ => return none

/-- The pointer into the frame that a reader of the base register computes, and the place it
points to. -/
def frameReference? (g : Graph) (o : OpId) : Checked (Option (VarnodeId × UInt64)) := do
  let op ← op g o
  let stack ← space g.spaces g.stack
  match op.output, ← frameOffset? g op with
  | some out, some offset =>
    return some (out, stack.wrap (← unitOfByte stack (wordOfInt offset)))
  | _, _ => return none

/-- The pointers into the frame that readers of the base register compute. -/
def frameReferences (g : Graph) (base : VarnodeId) : Checked (List (VarnodeId × UInt64)) := do
  filterMap (frameReference? g) (← varnode g base).readers

/-- Give a value of the frame the type of the piece of `pointee` that it stores. -/
def aliasValue (g : Graph) (skipMerges : Bool) (start : UInt64) (pointee : TypeId) (p : Pass)
    (v : VarnodeId) : Checked Pass := do
  let node ← varnode g v
  if !node.isObservable || (← locked p.state v) || node.entry.isSome then return p
  else
    let stack ← space g.spaces g.stack
    let offset := (stack.wrap (node.address.offset - start)).toNat
    let stop ← within UInt64.size (offset + node.size)
    if (← size p.state.types pointee) < stop then return p
    else
      match ← exactPiece p.state.types pointee offset node.size with
      | none => return p
      | some piece =>
        if ← moreSpecific p.state.types piece (← temporary p.state v) then
          propagate g skipMerges (← setTemporary p v piece .stackAlias) v
        else return p

/-- The values of the frame that start within the `size` bytes from `start` on. -/
def coveredValues (g : Graph) (start : UInt64) (size : Nat) : Checked (List VarnodeId) := do
  let stack ← space g.spaces g.stack
  let stop := stack.wrap (start + UInt64.ofNat size)
  valuesInRange g g.stack start (if stop < start then none else some stop)

/-- Copy the type behind a pointer to the place `start` of the frame onto the values there. -/
def aliasReference (g : Graph) (skipMerges : Bool) (p : Pass) (reference : VarnodeId × UInt64) :
    Checked Pass := do
  match ← pointee? p.state.types (← temporary p.state reference.1) with
  | none => return p
  | some pointee =>
    let metatype ← metatype p.state.types pointee
    if metatype = .spacebase ∨ metatype = .unknown then return p
    else
      let values ← coveredValues g reference.2 (← size p.state.types pointee)
      values.foldlM (aliasValue g skipMerges reference.2 pointee) p

/-- Copy the types behind pointers into the frame onto the frame. -/
def aliasFrame (g : Graph) (skipMerges : Bool) (p : Pass) : Checked Pass := do
  match g.spaceBase with
  | none => return p
  | some base =>
    if ← isSpacebasePointer p.state.types (← committed p.state base) then
      (← frameReferences g base).foldlM (aliasReference g skipMerges) p
    else return p

private theorem stackSpace_eq (hi : g.Intact) : space g.spaces g.stack = .ok g.stackSpace :=
  space_eq hi.stack

/-- The units of spaces are not empty as words. -/
theorem unitOfByte_eq {x : Space} (hx : x.wordSize < UInt32.size) (offset : UInt64) :
    unitOfByte x offset = .ok (x.unitOfByte offset) := by
  rw [unitOfByte, Space.unitOfByte]
  split
  · rfl
  · rename_i hunit
    have hword : x.wordSize % 2 ^ 64 = x.wordSize := Nat.mod_eq_of_lt (Nat.lt_trans hx (by decide))
    have hne : UInt64.ofNat x.wordSize ≠ 0 := by
      intro hzero
      have hnat := congrArg UInt64.toNat hzero
      rw [UInt64.toNat_ofNat', hword] at hnat
      exact hunit (by rw [hnat]; decide)
    exact if_neg hne

private theorem frameOffset?_eq {op : Op} (hop : g.Wired op) :
    frameOffset? g op = .ok (Recovery.frameOffset? g op) := by
  rw [frameOffset?, Recovery.frameOffset?]
  cases op.opcode with
  | intAdd | ptrSub =>
    dsimp only
    rw [constant?_eq hop, ok_bind]
    rfl
  | ptrAdd =>
    dsimp only
    rw [constant?_eq hop, ok_bind, constant?_eq hop, ok_bind]
    cases g.constant? op 1 with
    | none => rfl
    | some count => cases g.constant? op 2 <;> rfl
  | _ => rfl

private theorem frameReference?_eq (hg : g.WellFormed) (hi : g.Intact) (ho : o < g.ops.size) :
    frameReference? g o = .ok (Recovery.frameReference? g o) := by
  have hunits : g.stackSpace.wordSize < UInt32.size := by
    rw [Graph.stackSpace, SpaceTable.get, SpaceTable.get?, Array.getElem?_eq_getElem hi.stack]
    exact hi.units _ (Array.getElem_mem hi.stack)
  rw [frameReference?, op_eq ho, ok_bind, stackSpace_eq hi, ok_bind,
    frameOffset?_eq (hg.wired o), ok_bind, Recovery.frameReference?]
  cases (g.op o).output with
  | none => rfl
  | some out =>
    cases Recovery.frameOffset? g (g.op o) with
    | none => rfl
    | some offset =>
      dsimp only
      rw [unitOfByte_eq hunits, ok_bind]
      rfl

/-- The references into the frame are found without a fault. -/
theorem frameReferences_eq (hg : g.WellFormed) (hi : g.Intact) (hv : v < g.varnodes.size) :
    frameReferences g v = .ok (Recovery.frameReferences g v) := by
  rw [frameReferences, varnode_eq hv, ok_bind]
  exact filterMap_eq fun o ho => frameReference?_eq hg hi (hg.lt_of_mem_readers ho)

private theorem lt_of_mem_frameReferences (hg : g.WellFormed) {reference : VarnodeId × UInt64}
    (h : reference ∈ Recovery.frameReferences g v) : reference.1 < g.varnodes.size := by
  obtain ⟨o, -, ho⟩ := List.mem_filterMap.mp h
  rw [Recovery.frameReference?] at ho
  split at ho
  · rename_i out offset hout hoffset
    cases ho
    exact hg.lt_of_output hout
  · cases ho

/-- A word shorter than eight bytes is far below the end of the words. -/
theorem wrap_lt {x : Space} (h : x.addressSize < 8) (a : UInt64) : (x.wrap a).toNat < 2 ^ 56 := by
  have hbits : wordBits x.addressSize ≤ 56 := by rw [wordBits]; omega
  rw [Space.toNat_wrap]
  exact Nat.lt_of_lt_of_le (Nat.mod_lt _ (Nat.two_pow_pos _))
    (Nat.pow_le_pow_right (by decide) hbits)

/-- Addresses of eight bytes or more are not cut. -/
theorem wrap_eq_self {x : Space} (h : 8 ≤ x.addressSize) (a : UInt64) : x.wrap a = a := by
  apply Space.wrap_of_lt
  rw [Space.extent, wordBits, Nat.min_eq_right h]
  exact UInt64.toNat_lt a

/-- The distance from the start of a range to an offset in it is less than the size of the range,
also when the range runs over the end of the words. -/
theorem toNat_sub_lt {start offset : UInt64} {size : Nat} (hsize : size < UInt32.size)
    (hstart : start ≤ offset)
    (hstop : start + UInt64.ofNat size < start ∨ offset < start + UInt64.ofNat size) :
    (offset - start).toNat < size := by
  have hword : size % 2 ^ 64 = size := Nat.mod_eq_of_lt (Nat.lt_trans hsize (by decide))
  have hlow := UInt64.toNat_lt start
  have hhigh := UInt64.toNat_lt offset
  rw [UInt64.toNat_sub_of_le _ _ hstart]
  rw [UInt64.le_iff_toNat_le] at hstart
  rw [UInt64.lt_iff_toNat_lt, UInt64.lt_iff_toNat_lt, UInt64.toNat_add, UInt64.toNat_ofNat',
    hword] at hstop
  omega

/-- What holds of the values that start within `size` bytes of the frame from `start` on. -/
structure Covered (g : Graph) (start : UInt64) (size : Nat) (v : VarnodeId) : Prop where
  /-- The value exists. -/
  lt_size : v < g.varnodes.size
  /-- It does not start before the range. -/
  start_le : start ≤ (g.varnode v).address.offset
  /-- It starts before the end of the range, if the range has one. -/
  lt_stop : g.stackSpace.wrap (start + UInt64.ofNat size) < start ∨
    (g.varnode v).address.offset < g.stackSpace.wrap (start + UInt64.ofNat size)

private theorem covered_of_mem (hg : g.WellFormed) (hi : g.Intact) {start : UInt64} {size : Nat}
    (h : v ∈ Recovery.coveredValues g start size) : Covered g start size v := by
  obtain ⟨hv, -, hstart, hstop⟩ := (hi.indexed.mem_valuesInRange hg.located).mp h
  refine ⟨hv, hstart, ?_⟩
  split at hstop
  · exact Or.inl ‹_›
  · exact Or.inr (of_decide_eq_true hstop)

/-- The end of a value of the frame, counted from the place a pointer points to, fits 64 bits. -/
theorem Covered.end_lt (hi : g.Intact) {start : UInt64} {size : Nat} (hsize : size < UInt32.size)
    (h : Covered g start size v) :
    (g.stackSpace.wrap ((g.varnode v).address.offset - start)).toNat + (g.varnode v).size <
      UInt64.size := by
  have hvalue : (g.varnode v).size < 2 ^ 32 := hi.valueSizes v h.lt_size
  have hlimit : UInt64.size = 2 ^ 64 := rfl
  by_cases hshort : g.stackSpace.addressSize < 8
  · have hcut := wrap_lt hshort ((g.varnode v).address.offset - start)
    omega
  · have hlong := wrap_eq_self (Nat.le_of_not_lt hshort)
    have hstop := h.lt_stop
    rw [hlong] at hstop
    have hdistance := toNat_sub_lt hsize h.start_le hstop
    have hsize : size < 2 ^ 32 := hsize
    rw [hlong]
    omega

/-- A value of the frame has its turn without a fault. -/
theorem aliasValue_eq (hg : g.WellFormed) (hi : g.Intact) (skip : Bool) {start : UInt64}
    {pointee size : Nat} (hp : Offers g pointee p) (hsize : size < UInt32.size)
    (hmem : v ∈ Recovery.coveredValues g start size) :
    aliasValue g skip start pointee p v = .ok (Recovery.aliasValue g skip start pointee p v) ∧
      Offers g pointee (Recovery.aliasValue g skip start pointee p v) := by
  obtain ⟨hs, hhas⟩ := hp
  have hv := covered_of_mem hg hi hmem
  have hvalid := hs.valid_of hv.lt_size
  obtain ⟨as, hrun, -⟩ := Recovery.aliasValue_trace skip hg ⟨hvalid, hhas⟩ hmem
  have hkept := (hrun.keeps_has ⟨hvalid, hhas⟩).2
  suffices h : aliasValue g skip start pointee p v =
      .ok (Recovery.aliasValue g skip start pointee p v) ∧
      Ready g (Recovery.aliasValue g skip start pointee p v).state from ⟨h.1, h.2, hkept⟩
  clear hrun hkept
  rw [aliasValue, varnode_eq hv.lt_size, ok_bind, locked_eq hs hv.lt_size, ok_bind,
    Recovery.aliasValue]
  dsimp only
  split
  · exact ⟨rfl, hs⟩
  · rw [stackSpace_eq hi, ok_bind, within_eq (hv.end_lt hi hsize), ok_bind, size_eq hhas, ok_bind]
    split
    · exact ⟨rfl, hs⟩
    · rw [exactPiece_eq hvalid.types hs.laid hhas, ok_bind]
      cases hpiece : p.state.types.exactPiece pointee
          (g.stackSpace.wrap ((g.varnode v).address.offset - start)).toNat (g.varnode v).size with
      | none => exact ⟨rfl, hs⟩
      | some piece =>
        have hnew := hvalid.types.has_exactPiece hhas hpiece
        dsimp only
        rw [temporary_eq hs hv.lt_size, ok_bind,
          moreSpecific_eq hvalid.types hnew (hvalid.temporary v), ok_bind]
        split
        · exact propagate_setTemporary_eq hg hi skip hs hnew hv.lt_size .stackAlias
        · exact ⟨rfl, hs⟩

private theorem coveredValues_eq (hi : g.Intact) (start : UInt64) (size : Nat) :
    coveredValues g start size = .ok (Recovery.coveredValues g start size) := by
  rw [coveredValues, stackSpace_eq hi, ok_bind, valuesInRange_eq]
  rfl

/-- A reference into the frame has its turn without a fault. -/
theorem aliasReference_eq (hg : g.WellFormed) (hi : g.Intact) (skip : Bool) (hs : Ready g p.state)
    {reference : VarnodeId × UInt64} (hlt : reference.1 < g.varnodes.size) :
    aliasReference g skip p reference = .ok (Recovery.aliasReference g skip p reference) ∧
      Ready g (Recovery.aliasReference g skip p reference).state := by
  have hvalid := hs.valid_of hlt
  rw [aliasReference, temporary_eq hs hlt, ok_bind, pointee?_eq (hvalid.temporary _), ok_bind,
    Recovery.aliasReference_eq skip hg hvalid]
  cases hpointee : p.state.types.pointee? (p.state.temporary reference.1) with
  | none => exact ⟨rfl, hs⟩
  | some pointee =>
    have hhas := hvalid.types.has_pointee (hvalid.temporary _) hpointee
    dsimp only
    rw [metatype_eq hhas, ok_bind]
    split
    · exact ⟨rfl, hs⟩
    · rw [size_eq hhas, ok_bind, coveredValues_eq hi, ok_bind]
      obtain ⟨hok, hready⟩ := foldlM_eq (P := Offers g pointee)
        (l := Recovery.coveredValues g reference.2 (p.state.types.size pointee)) ⟨hs, hhas⟩
        fun v hv q hq => aliasValue_eq hg hi skip hq (hs.laid.size_lt pointee) hv
      exact ⟨hok, hready.1⟩

/-- Types are copied onto the frame without a fault. -/
theorem aliasFrame_eq (hg : g.WellFormed) (hi : g.Intact) (skip : Bool) (hs : Ready g p.state) :
    aliasFrame g skip p = .ok (Recovery.aliasFrame g skip p) ∧
      Ready g (Recovery.aliasFrame g skip p).state := by
  rw [aliasFrame, Recovery.aliasFrame]
  cases hbase : g.spaceBase with
  | none => exact ⟨rfl, hs⟩
  | some base =>
    have hlt := hi.spaceBase base hbase
    have hvalid := hs.valid_of hlt
    dsimp only
    rw [committed_eq hs hlt, ok_bind, isSpacebasePointer_eq hvalid.types (hvalid.committed base),
      ok_bind]
    split
    · rw [frameReferences_eq hg hi hlt, ok_bind]
      exact foldlM_eq (P := fun p : Pass => Ready g p.state) hs fun reference hreference q hq =>
        aliasReference_eq hg hi skip hq (lt_of_mem_frameReferences hg hreference)
    · exact ⟨rfl, hs⟩

end Checked

end TypeRecovery
