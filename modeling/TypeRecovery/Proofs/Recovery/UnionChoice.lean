import TypeRecovery.Proofs.DataType.BestField
import TypeRecovery.Proofs.DataType.Construction
import TypeRecovery.Proofs.Recovery.Round

/-!
# The fields of unions that flow

In place of a union one of its fields flows. The first union that comes to a slot of an op decides:
the position of its best field is remembered for the slot for good. A union that comes to the slot
later is replaced by its own field at that position, whichever field that is.
-/

namespace TypeRecovery

namespace Recovery

open TypeTable TypeState

/-! ## What is remembered -/

/-- A union, or a pointer to it, flows out of a slot of an op. -/
structure Visit where
  /-- The op. -/
  op : OpId
  /-- The slot. -/
  slot : Slot
  /-- The union. -/
  union : TypeId
  deriving DecidableEq, Repr

/-- A union with a field as wide as itself comes to a slot. -/
def Visit.Decides (t : TypeTable) (o : OpId) (slot : Slot) (w : Visit) : Prop :=
  w.op = o ∧ w.slot = slot ∧ (t.ownField? w.union).isSome = true

instance (t : TypeTable) (o : OpId) (slot : Slot) (w : Visit) : Decidable (w.Decides t o slot) :=
  inferInstanceAs (Decidable (_ ∧ _ ∧ _))

/-- The first union with a field as wide as itself that came to a slot. -/
def firstUnion? (t : TypeTable) (o : OpId) (slot : Slot) : List Visit → Option TypeId
  | [] => none
  | w :: rest => if w.Decides t o slot then some w.union else firstUnion? t o slot rest

variable {g : Graph} {skip : Bool} {s s' : TypeState} {p q : Pass} {a : Action} {as : List Action}
  {visits : List Visit} {o union : Nat} {slot : Slot} {t u : TypeTable}

private theorem firstUnion?_append (t : TypeTable) (o : Nat) (slot : Slot)
    (visits more : List Visit) :
    firstUnion? t o slot (visits ++ more) =
      (firstUnion? t o slot visits).or (firstUnion? t o slot more) := by
  induction visits with
  | nil => rfl
  | cons w rest ih =>
    rw [List.cons_append, firstUnion?, firstUnion?]
    split
    · rfl
    · exact ih

/-- The union that came first has a best field, and it is one of those that came. -/
theorem of_firstUnion? (h : firstUnion? t o slot visits = some union) :
    (t.ownField? union).isSome = true ∧ ∃ w ∈ visits, w.union = union := by
  induction visits with
  | nil => cases h
  | cons w rest ih =>
    rw [firstUnion?] at h
    split at h
    · rename_i hw
      cases h
      exact ⟨hw.2.2, w, List.mem_cons_self, rfl⟩
    · obtain ⟨hfield, x, hx, heq⟩ := ih h
      exact ⟨hfield, x, List.mem_cons_of_mem w hx, heq⟩

/-- The first union stays the same when the table is extended. -/
theorem firstUnion?_extends (hu : t.Extends u) (ht : t.WellFormed)
    (h : ∀ w ∈ visits, t.Has w.union) (o : Nat) (slot : Slot) :
    firstUnion? u o slot visits = firstUnion? t o slot visits := by
  induction visits with
  | nil => rfl
  | cons w rest ih =>
    have hw : w.Decides u o slot ↔ w.Decides t o slot := by
      rw [Visit.Decides, Visit.Decides, hu.ownField? ht (h w List.mem_cons_self)]
    rw [firstUnion?, firstUnion?, ih fun x hx => h x (List.mem_cons_of_mem w hx)]
    simp only [hw]

/-- The field that is chosen at a slot is the best field of the union that came there first. -/
structure Remembers (visits : List Visit) (s : TypeState) : Prop where
  /-- The unions exist. -/
  exist : ∀ w ∈ visits, s.types.Has w.union
  /-- A field is chosen at a slot if a union came to it. -/
  choice : ∀ o slot,
    s.choice? o slot = (firstUnion? s.types o slot visits).bind s.types.ownField?

/-- What is remembered is remembered in an extended table. -/
theorem Remembers.extends (h : Remembers visits s) (hs : s.types.WellFormed)
    (hu : s.types.Extends s'.types) (hchoices : s'.choices = s.choices) :
    Remembers visits s' where
  exist w hw := hu.has (h.exist w hw)
  choice o slot := by
    have hsame : s'.choice? o slot = s.choice? o slot := by
      rw [choice?, hchoices]
      rfl
    rw [hsame, h.choice, firstUnion?_extends hu hs h.exist]
    cases hfirst : firstUnion? s.types o slot visits with
    | none => rw [Option.bind_none, Option.bind_none]
    | some first =>
      obtain ⟨-, w, hw, rfl⟩ := of_firstUnion? hfirst
      rw [Option.bind_some, Option.bind_some, hu.ownField? hs (h.exist w hw)]

/-- The choice at a slot after a union came to some slot. -/
theorem choice?_chooseField (s : TypeState) (union o : Nat) (slot : Slot) (o' : Nat)
    (slot' : Slot) : (chooseField s union o slot).2.choice? o' slot' =
      (s.choice? o' slot').or
        (if o = o' ∧ slot = slot' then s.types.ownField? union else none) := by
  rw [chooseField]
  cases hold : s.choice? o slot with
  | some field =>
    by_cases hplace : o = o' ∧ slot = slot'
    · obtain ⟨rfl, rfl⟩ := hplace
      rw [hold, Option.some_or]
    · rw [if_neg hplace, Option.or_none]
  | none =>
    dsimp only
    rw [TypeTable.ownField?]
    cases s.types.bestUnionField? union (s.types.size union) with
    | none => rw [ite_self, Option.or_none]
    | some field =>
      dsimp only
      rw [choice?_choose]
      by_cases hplace : o = o' ∧ slot = slot'
      · obtain ⟨rfl, rfl⟩ := hplace
        rw [if_pos ⟨rfl, rfl⟩, if_pos ⟨rfl, rfl⟩, hold, Option.none_or]
      · rw [if_neg fun h => hplace ⟨h.1.symm, h.2.symm⟩, if_neg hplace, Option.or_none]

/-- A union that comes to a slot is remembered if it is the first one there that has a field as wide
as itself. -/
theorem Remembers.chooseField (h : Remembers visits s) (hunion : s.types.Has union) (o : Nat)
    (slot : Slot) :
    Remembers (visits ++ [⟨o, slot, union⟩]) (chooseField s union o slot).2 := by
  have htypes := types_chooseField s union o slot
  constructor
  · intro w hw
    rw [htypes]
    rcases List.mem_append.mp hw with hold | hnew
    · exact h.exist w hold
    · rw [List.mem_singleton.mp hnew]
      exact hunion
  · intro o' slot'
    rw [htypes, firstUnion?_append, choice?_chooseField, h.choice]
    cases hfirst : firstUnion? s.types o' slot' visits with
    | some first =>
      obtain ⟨index, hindex⟩ := Option.isSome_iff_exists.mp (of_firstUnion? hfirst).1
      rw [Option.bind_some, Option.some_or, Option.bind_some, hindex, Option.some_or]
    | none =>
      rw [Option.bind_none, Option.none_or, Option.none_or, firstUnion?, firstUnion?]
      by_cases hplace : o = o' ∧ slot = slot'
      · rw [if_pos hplace]
        cases hfield : s.types.ownField? union with
        | none =>
          rw [if_neg fun hdecides => by simp [Visit.Decides, hfield] at hdecides, Option.bind_none]
        | some field =>
          rw [if_pos ⟨hplace.1, hplace.2, by rw [hfield]; rfl⟩, Option.bind_some, hfield]
      · rw [if_neg hplace, if_neg fun hdecides => hplace ⟨hdecides.1, hdecides.2.1⟩,
          Option.bind_none]

private theorem choices_resolveUnion (s : TypeState) (id o : Nat) (slot : Slot) :
    (resolveUnion s id o slot).2.choices =
      (chooseField s ((s.types.pointee? id).getD id) o slot).2.choices := by
  rw [resolveUnion]
  dsimp only
  split
  · rfl
  · split
    · rfl
    · rfl

/-- Resolving a union remembers it. -/
theorem Remembers.resolveUnion (h : Remembers visits s) (hs : s.types.WellFormed) {id : Nat}
    (hid : s.types.Has id) (o : Nat) (slot : Slot) :
    Remembers (visits ++ [⟨o, slot, (s.types.pointee? id).getD id⟩])
      (resolveUnion s id o slot).2 := by
  have htypes := types_chooseField s ((s.types.pointee? id).getD id) o slot
  refine (h.chooseField (has_union hs hid) o slot).extends ?_ ?_ (choices_resolveUnion s id o slot)
  · rw [htypes]
    exact hs
  · rw [htypes]
    exact (resolveUnion_learns hs hid o slot).1.types.extends

/-! ## Runs and rounds -/

/-- What comes to a slot that holds a value, if it is a union or a pointer to one. -/
def flowVisit? (s : TypeState) (v : VarnodeId) (o : OpId) (slot : Slot) : Option Visit :=
  let type := s.temporary v
  if s.types.needsResolution type then some ⟨o, slot, (s.types.pointee? type).getD type⟩ else none

/-- The union that an action lets flow. -/
def Action.visit? (g : Graph) (s : TypeState) : Action → Option Visit
  | .offered r =>
    match (g.op r.op).at? r.inSlot, (g.op r.op).at? r.outSlot with
    | some source, some _ => flowVisit? s source r.op r.inSlot
    | _, _ => none
  | _ => none

/-- The unions that flow while actions are performed, in order. -/
def visitsOf (g : Graph) (skip : Bool) : Pass → List Action → List Visit
  | _, [] => []
  | p, a :: rest => (a.visit? g p.state).toList ++ visitsOf g skip (act g skip p a) rest

/-- What flows out of a slot is remembered. -/
theorem Remembers.flowingType (h : Remembers visits s) (hs : s.Valid) (v o : Nat) (slot : Slot) :
    Remembers (visits ++ (flowVisit? s v o slot).toList) (flowingType s v o slot).2 := by
  rw [flowVisit?, Recovery.flowingType]
  split
  · exact h.resolveUnion hs.types (hs.temporary v) o slot
  · rw [Option.toList_none, List.append_nil]
    exact h

/-- An action remembers the union that it lets flow. -/
theorem Remembers.act (skip : Bool) (hp : p.state.Valid) (h : Remembers visits p.state)
    (a : Action) :
    Remembers (visits ++ (a.visit? g p.state).toList) (act g skip p a).state := by
  have hkept : Remembers (visits ++ []) p.state := by
    rw [List.append_nil]
    exact h
  cases a with
  | entered root w => exact hkept
  | unified w u =>
    rw [Recovery.act, Pass.state_setTemporary]
    exact hkept.extends hp.types (.refl _) rfl
  | aliased w u =>
    rw [Recovery.act, Pass.state_setTemporary]
    exact hkept.extends hp.types (.refl _) rfl
  | offered r =>
    have hjudge : Remembers (visits ++ ((Action.offered r).visit? g p.state).toList)
        (judge g skip p.state r).state := by
      rw [Action.visit?]
      rcases slots_cases g r with ⟨source, dest, hin, hout⟩ | hmissing
      · rw [hin, hout]
        exact (h.flowingType hp source r.op r.inSlot).extends
          ((flowingType_learns hp source r.op r.inSlot).1.valid hp).types
          (flow_learns_judge skip hp hin hout).types.extends (choices_judge skip hin hout)
      · rw [judge_of_missing hmissing]
        rcases hmissing with hnone | hnone
        · rw [hnone]
          exact hkept
        · rw [hnone]
          cases (g.op r.op).at? r.inSlot <;> exact hkept
    have hvalid := (judge_learns g skip hp r).valid hp
    rcases act_offered g skip hp r with ⟨-, -, hstate⟩ | ⟨w, u, -, hstate, -⟩
    · rw [hstate]
      exact hjudge
    · rw [hstate]
      exact hjudge.extends hvalid.types (.refl _) rfl

/-- A run remembers the unions that flow. -/
theorem Run.remembers (hrun : Run g skip p as q) (hp : p.state.Valid)
    (h : Remembers visits p.state) : Remembers (visits ++ visitsOf g skip p as) q.state := by
  induction hrun generalizing visits with
  | nil =>
    rw [visitsOf, List.append_nil]
    exact h
  | cons ha _ ih =>
    rw [visitsOf, ← List.append_assoc]
    exact ih (act_valid skip hp ha) (h.act skip hp _)

private theorem choices_seedAll (g : Graph) (p : Pass) :
    (seedAll g p).state.choices = p.state.choices :=
  List.foldlRecOn (motive := fun q : Pass => q.state.choices = p.state.choices) g.observables _ rfl
    fun q hq v _ => by rw [state_seedValue, choices_setTemporary, choices_guessedState, hq]

end Recovery

open Recovery TypeTable

variable {r : Routine} {visits : List Visit}

/-- The first guesses forget nothing. -/
theorem Routine.WellFormed.remembers_guessed (hr : r.WellFormed)
    (hpos : 0 < r.graph.varnodes.size) (h : Remembers visits r.state) :
    Remembers visits r.guessed.state := by
  obtain ⟨hlocks, hvalid, -⟩ := hr.recommended_spec hpos
  refine h.extends hr.types ?_ ?_
  · rw [← hlocks.types]
    exact (hr.guessed_later hpos).1.types.extends
  · rw [Routine.guessed, choices_seedAll, hlocks.choices]

/-- A round remembers the unions that flow in it. -/
theorem Routine.WellFormed.remembers_runRound (hr : r.WellFormed)
    (hpos : 0 < r.graph.varnodes.size) (h : Remembers visits r.state) {c : Config}
    {as : List Action} (hrun : Run r.graph (skipsMerges c r.graph) r.guessed as (r.pass c)) :
    Remembers (visits ++ visitsOf r.graph (skipsMerges c r.graph) r.guessed as)
      (r.runRound c).routine.state := by
  obtain ⟨htypes, hchoices, -, -⟩ := commitAll_frame r.graph (r.pass c).state
  have hpass := hrun.remembers (hr.guessed_later hpos).2 (hr.remembers_guessed hpos h)
  rw [Routine.state_runRound]
  refine hpass.extends (hr.pass_later hpos c).2.types ?_ hchoices
  rw [htypes]
  exact .refl _

private theorem Graph.mem_symbols_setSymbolType {g : Graph} {symbol : SymbolId} {type : TypeId}
    {x : Symbol} (h : x ∈ (g.setSymbolType symbol type).symbols) :
    x.type = type ∨ x ∈ g.symbols := by
  rw [Graph.setSymbolType] at h
  obtain ⟨i, hi, rfl⟩ := Array.mem_iff_getElem.mp h
  rw [Array.getElem_modify]
  split
  · exact Or.inl rfl
  · exact Or.inr (Array.getElem_mem _)

/-- Changing the type of a symbol to one that exists keeps a function well-formed. -/
theorem Routine.WellFormed.setSymbolType (hr : r.WellFormed) (symbol : SymbolId) {type : TypeId}
    (htype : r.state.types.Has type) :
    (r.modifyGraph (·.setSymbolType symbol type)).WellFormed where
  graph := ⟨hr.graph.reads, hr.graph.writes, hr.graph.located⟩
  types := hr.types
  sizes := hr.sizes
  typings := hr.typings
  mentioned := by
    refine ⟨fun x hx => ?_, hr.mentioned.recommendations, hr.mentioned.prototype⟩
    rcases Graph.mem_symbols_setSymbolType hx with hnew | hold
    · exact hnew ▸ htype
    · exact hr.mentioned.symbols x hold

/-- Constructing a type keeps a function well-formed. -/
theorem Routine.WellFormed.perform (hr : r.WellFormed) (hpos : 0 < r.graph.varnodes.size)
    {c : TypeTable.Call} (hc : ∀ id ∈ c.arguments, r.state.types.Has id) :
    (r.modifyState fun s => s.withTypes (s.types.perform c)).WellFormed := by
  have hgrown := perform_grown hr.types hc
  have hvalid := hr.valid hpos
  exact hr.of_valid rfl hgrown.extends rfl ⟨hgrown.wellFormed hr.types,
    fun v => hgrown.extends.has (hvalid.temporary v),
    fun v => hgrown.extends.has (hvalid.committed v)⟩

namespace Recovery

/-- A function under recovery, and the unions that flowed since no field was chosen. Rounds are run,
symbols get other types, and types are constructed. -/
inductive History : List Visit → Routine → Prop where
  | start {r : Routine} : r.WellFormed → 0 < r.graph.varnodes.size → r.state.choices = [] →
      History [] r
  | round {visits : List Visit} {r : Routine} {as : List Action} (c : Config) :
      History visits r → Run r.graph (skipsMerges c r.graph) r.guessed as (r.pass c) →
      History (visits ++ visitsOf r.graph (skipsMerges c r.graph) r.guessed as)
        (r.runRound c).routine
  | retyped {visits : List Visit} {r : Routine} (symbol : SymbolId) {type : TypeId} :
      History visits r → r.state.types.Has type →
      History visits (r.modifyGraph (·.setSymbolType symbol type))
  | constructed {visits : List Visit} {r : Routine} (c : TypeTable.Call) :
      History visits r → (∀ id ∈ c.arguments, r.state.types.Has id) →
      History visits (r.modifyState fun s => s.withTypes (s.types.perform c))
  | untouched {visits : List Visit} {r r' : Routine} :
      History visits r → r'.graph = r.graph → r'.state = r.state → History visits r'

/-- A history ends with a function that remembers it. -/
theorem History.spec (h : History visits r) :
    r.WellFormed ∧ 0 < r.graph.varnodes.size ∧ Remembers visits r.state := by
  induction h with
  | start hr hpos hchoices =>
    refine ⟨hr, hpos, fun w hw => (by cases hw), fun o slot => ?_⟩
    rw [TypeState.choice?, hchoices]
    rfl
  | round c _ hrun ih =>
    obtain ⟨hr, hpos, hremembers⟩ := ih
    refine ⟨hr.runRound c, ?_, hr.remembers_runRound hpos hremembers hrun⟩
    rw [Routine.graph_runRound]
    exact hpos
  | retyped symbol _ htype ih =>
    obtain ⟨hr, hpos, hremembers⟩ := ih
    exact ⟨hr.setSymbolType symbol htype, hpos, hremembers⟩
  | constructed c _ hc ih =>
    obtain ⟨hr, hpos, hremembers⟩ := ih
    exact ⟨hr.perform hpos hc, hpos,
      hremembers.extends hr.types (perform_grown hr.types hc).extends rfl⟩
  | untouched _ hgraph hstate ih =>
    obtain ⟨hr, hpos, hremembers⟩ := ih
    exact ⟨hr.congr hgraph hstate, hgraph ▸ hpos, hstate ▸ hremembers⟩

/-- Every round continues a history. -/
theorem History.exists_round (h : History visits r) (c : Config) :
    ∃ more, History (visits ++ more) (r.runRound c).routine := by
  obtain ⟨hr, hpos, -⟩ := h.spec
  obtain ⟨_, _, _, _, _, _, hphases⟩ := hr.phases hpos c
  exact ⟨_, .round c h hphases.run⟩

/-! ## What flows in place of a union -/

/-- In place of a type that is or points to a union, another type flows that is or points to the
type of a field. -/
def Substitutes (t : TypeTable) (type : TypeId) (t' : TypeTable) (type' : TypeId)
    (field : Field) : Prop :=
  match t.pointee? type with
  | none => type' = field.type
  | some _ => t'.pointee? type' = some field.type ∧ t'.size type' = t.size type

/-- What takes the place of a union that is no pointer is the type of a field. -/
theorem Substitutes.eq_of_not_pointer {t t' : TypeTable} {type type' : Nat} {field : Field}
    (h : Substitutes t type t' type' field) (htype : t.pointee? type = none) :
    type' = field.type := by
  rw [Substitutes, htype] at h
  exact h

/-- A union with a chosen field is replaced by it, if it has a field at that position. -/
theorem resolveUnion_of_chosen (s : TypeState) {id o index : Nat} {slot : Slot}
    (h : (chooseField s ((s.types.pointee? id).getD id) o slot).1 = some index) :
    let fields := s.types.unionFields ((s.types.pointee? id).getD id)
    (fields[index]? = none → (resolveUnion s id o slot).1 = id) ∧
      ∀ field, fields[index]? = some field →
        Substitutes s.types id (resolveUnion s id o slot).2.types (resolveUnion s id o slot).1
          field := by
  intro fields
  rw [resolveUnion, h]
  dsimp only [Option.bind_some]
  constructor
  · intro hnone
    rw [hnone]
  · intro field hfield
    rw [hfield, Substitutes]
    cases s.types.pointee? id with
    | none => rfl
    | some pointee =>
      obtain ⟨hsize, hshape⟩ :=
        s.types.get_pointerSized (s.types.size id) field.type (s.types.wordSize id)
      dsimp only
      rw [TypeState.types_withTypes, TypeTable.pointee?, hshape]
      exact ⟨rfl, hsize⟩

/-- A type flows out of a slot whose value has the type `t`: the type itself or, if that is or
points to a union, what the field that was chosen for the slot puts in its place. -/
inductive Outflow (s : TypeState) (o : OpId) (slot : Slot) (t : TypeId) : TypeId → Prop where
  | same : Outflow s o slot t t
  | field {index : Nat} {field : Field} {type : TypeId} (chosen : s.choice? o slot = some index)
      (member : (s.types.unionFields ((s.types.pointee? t).getD t))[index]? = some field)
      (replaced : Substitutes s.types t s.types type field) : Outflow s o slot t type

/-- A resolved union is itself or replaced by a chosen field. -/
theorem outflow_resolveUnion (hs : s.types.WellFormed) {t : Nat} (ht : s.types.Has t) (o : Nat)
    (slot : Slot) :
    Outflow (resolveUnion s t o slot).2 o slot t (resolveUnion s t o slot).1 := by
  have hext := (resolveUnion_learns hs ht o slot).1.types.extends
  have hunion := has_union hs ht
  cases hchosen : (chooseField s ((s.types.pointee? t).getD t) o slot).1 with
  | none =>
    have hsame : (resolveUnion s t o slot).1 = t := by rw [resolveUnion, hchosen]; rfl
    rw [hsame]
    exact .same
  | some index =>
    obtain ⟨hnone, hsome⟩ := resolveUnion_of_chosen s hchosen
    cases hfield : (s.types.unionFields ((s.types.pointee? t).getD t))[index]? with
    | none =>
      rw [hnone hfield]
      exact .same
    | some field =>
      have hchoice : (resolveUnion s t o slot).2.choice? o slot = some index := by
        rw [fst_chooseField] at hchosen
        rw [TypeState.choice?, choices_resolveUnion]
        exact hchosen
      have hreplaced := hsome field hfield
      rw [Substitutes, ← hext.pointee? ht, ← hext.size ht] at hreplaced
      rw [← hext.unionFields hunion, ← hext.pointee? ht] at hfield
      exact .field hchoice hfield hreplaced

/-- What flows out of a slot is the type of the value there, or a field was chosen. -/
theorem outflow_flowingType (hs : s.Valid) (v o : Nat) (slot : Slot) :
    Outflow (flowingType s v o slot).2 o slot (s.temporary v) (flowingType s v o slot).1 := by
  rw [flowingType]
  split
  · exact outflow_resolveUnion hs.types (hs.temporary v) o slot
  · exact .same

/-- What flows out of a slot can be read off every later state. -/
theorem Outflow.retained {s s' : TypeState} {o t type : Nat} {slot : Slot}
    (h : Outflow s o slot t type) (hs : s.types.WellFormed) (ht : s.types.Has t)
    (htype : s.types.Has type) (hext : s.types.Extends s'.types)
    (hchoices : ∀ field, s.choice? o slot = some field → s'.choice? o slot = some field) :
    Outflow s' o slot t type := by
  cases h with
  | same => exact .same
  | field chosen member replaced =>
    rw [← hext.unionFields (has_union hs ht), ← hext.pointee? ht] at member
    rw [Substitutes, ← hext.pointee? ht, ← hext.pointee? htype, ← hext.size ht,
      ← hext.size htype] at replaced
    exact .field (hchoices _ chosen) member replaced

/-- A symbol of the union type `u` is copied, and the bytes of it are cut from a locked structure
that starts with a union of another type `w`. The best field of `u` is its second one, and the best
field of `w` is its first one. -/
def twoUnions : Routine :=
  let types := (TypeTable.empty 8).perform (.base 4 .int) |>.perform (.base 4 .uint)
    |>.perform (.base 4 .float) |>.perform (.base 2 .int)
    |>.perform (.union "u" 4 [⟨0, "i", 0⟩, ⟨0, "n", 1⟩])
    |>.perform (.union "w" 4 [⟨0, "f", 2⟩, ⟨0, "h", 3⟩, ⟨0, "l", 3⟩])
    |>.perform (.struct "s" 8 [⟨0, "a", 5⟩])
  let values := (Routine.empty "f" .simple 2 types).newVarnode 4 ⟨1, 0⟩ |>.newVarnode 4 ⟨1, 8⟩
    |>.newInput 8 ⟨1, 16⟩ |>.newConstant 4 0
  (values.modifyState (·.lock 2 6)).modifyGraph fun g =>
    (g.addSymbol ⟨"t", 4, true⟩).bindSymbol 0 ⟨0, ⟨1, 0⟩, 4, 0⟩
      |>.linkOp { opcode := .subpiece, address := ⟨1, 0⟩, inputs := [2, 3], output := some 0 }
      |>.linkOp { opcode := .copy, address := ⟨1, 1⟩, inputs := [0], output := some 1 }

/-- The actions of a round of the function until the symbol takes the type `w`, and those after
that. -/
def twoUnionsActions : List Action × List Action :=
  let offers (v : VarnodeId) : List Action := (edges twoUnions.graph v).map .offered
  ([.entered 3 3] ++ offers 3 ++ [.entered 0 0] ++ (offers 0).take 1 ++ [.entered 0 1] ++
      offers 1 ++ (offers 0).drop 1 ++ [.entered 1 1] ++ offers 1 ++ [.entered 2 2] ++
      (offers 2).take 1 ++ [.entered 2 0],
    offers 0 ++ (offers 2).drop 1)

/-- Whatever rounds are run and symbols retyped, the first union with a field as wide as itself that
comes to a slot decides for good: each union that comes to the slot is replaced by its own field at
the position of the best field of the first one, and stays as it is if it has no such field. So a
union that is the first one itself is replaced by a field that fits. -/
theorem History.flowingType_first (h : History visits r) {skip : Bool} {as : List Action} {m : Pass}
    (hrun : Run r.graph skip r.guessed as m) {v : VarnodeId} (o : OpId) (slot : Slot)
    (hneeds : m.state.types.needsResolution (m.state.temporary v) = true)
    (hown : let union := (m.state.types.pointee? (m.state.temporary v)).getD (m.state.temporary v)
      ∃ field ∈ m.state.types.unionFields union,
        m.state.types.size field.type = m.state.types.size union) :
    let type := m.state.temporary v
    let union := (m.state.types.pointee? type).getD type
    let flow := flowingType m.state v o slot
    ∃ first index,
      firstUnion? m.state.types o slot
        (visits ++ visitsOf r.graph skip r.guessed as ++ [⟨o, slot, union⟩]) = some first ∧
      m.state.types.bestUnionField? first (m.state.types.size first) = some index ∧
      ((m.state.types.unionFields union)[index]? = none → flow.1 = type) ∧
      (∀ field, (m.state.types.unionFields union)[index]? = some field →
        Substitutes m.state.types type flow.2.types flow.1 field) ∧
      (first = union → ∃ field, m.state.types.FitsUnion union field ∧
        Substitutes m.state.types type flow.2.types flow.1 field) := by
  intro type union flow
  obtain ⟨hr, hpos, hremembers⟩ := h.spec
  have hvalid := (hr.guessed_later hpos).2
  have hm := hrun.valid hvalid
  have hunion : m.state.types.Has union := has_union hm.types (hm.temporary v)
  have hchosen := ((hrun.remembers hvalid (hr.remembers_guessed hpos hremembers)).chooseField
    hunion o slot).choice o slot
  rw [← fst_chooseField, types_chooseField] at hchosen
  obtain ⟨first, hfirst⟩ : ∃ first, firstUnion? m.state.types o slot
      (visits ++ visitsOf r.graph skip r.guessed as ++ [⟨o, slot, union⟩]) = some first := by
    rw [← Option.isSome_iff_exists, firstUnion?_append, Option.isSome_or, firstUnion?,
      if_pos ⟨rfl, rfl, ownField?_isSome hown⟩, Option.isSome_some, Bool.or_true]
  obtain ⟨index, hindex⟩ := Option.isSome_iff_exists.mp (of_firstUnion? hfirst).1
  rw [hfirst, Option.bind_some, hindex] at hchosen
  have hflow : flow = resolveUnion m.state type o slot := if_pos hneeds
  obtain ⟨hnone, hsome⟩ := resolveUnion_of_chosen m.state hchosen
  rw [← hflow] at hnone hsome
  refine ⟨first, index, hfirst, hindex, hnone, hsome, ?_⟩
  rintro rfl
  obtain ⟨field, hfield, hfits⟩ := fits_of_ownField? hindex
  exact ⟨field, hfits, hsome field hfield⟩

/-- When the union `w` comes to the copy, the position of the best field of `u` is remembered there.
What flows is the second field of `w`, which is narrower than `w`. -/
theorem twoUnions_flowingType :
    let g := twoUnions.graph
    let skip := skipsMerges {} g
    let m := twoUnionsActions.1.foldl (act g skip) twoUnions.guessed
    History [] twoUnions ∧ Run g skip twoUnions.guessed twoUnionsActions.1 m ∧
      twoUnionsActions.2.foldl (act g skip) m = twoUnions.pass {} ∧
      m.state.temporary 0 = 5 ∧ m.state.types.FitsUnion 5 ⟨0, "f", 2⟩ ∧
      firstUnion? m.state.types 1 (.input 0)
        ([] ++ visitsOf g skip twoUnions.guessed twoUnionsActions.1 ++ [⟨1, .input 0, 5⟩]) =
          some 4 ∧
      (flowingType m.state 0 1 (.input 0)).1 = 3 := by
  intro g skip m
  have hhistory : History [] twoUnions :=
    .start (by decide +kernel) (by decide +kernel) (by decide +kernel)
  have hrun : Run g skip twoUnions.guessed twoUnionsActions.1 m :=
    run_foldl_act g skip twoUnions.guessed (by decide +kernel)
  have htype : m.state.temporary 0 = 5 := by decide +kernel
  have hfits : m.state.types.FitsUnion 5 ⟨0, "f", 2⟩ :=
    ⟨by decide +kernel, by decide +kernel, by decide +kernel⟩
  have hfirst : firstUnion? m.state.types 1 (.input 0)
      ([] ++ visitsOf g skip twoUnions.guessed twoUnionsActions.1 ++ [⟨1, .input 0, 5⟩]) =
        some 4 := by decide +kernel
  have hrest : twoUnionsActions.2.foldl (act g skip) m = twoUnions.pass {} := by decide +kernel
  have hneeds : m.state.types.needsResolution (m.state.temporary 0) = true := by decide +kernel
  have hpointee : m.state.types.pointee? (m.state.temporary 0) = none := by decide +kernel
  have hbest : m.state.types.bestUnionField? 4 (m.state.types.size 4) = some 1 := by decide +kernel
  have hfield : (m.state.types.unionFields 5)[1]? = some ⟨0, "h", 3⟩ := by decide +kernel
  refine ⟨hhistory, hrun, hrest, htype, hfits, hfirst, ?_⟩
  clear_value m
  have hunion : (m.state.types.pointee? (m.state.temporary 0)).getD (m.state.temporary 0) = 5 := by
    rw [hpointee, htype]
    rfl
  obtain ⟨first, index, hfirst', hindex, -, hsome, -⟩ :=
    hhistory.flowingType_first hrun 1 (.input 0) hneeds
      ⟨⟨0, "f", 2⟩, hunion ▸ hfits.mem, hunion ▸ hfits.size⟩
  rw [hunion] at hfirst' hsome
  obtain rfl := Option.some.inj (hfirst.symm.trans hfirst')
  obtain rfl := Option.some.inj (hbest.symm.trans hindex)
  exact (hsome _ hfield).eq_of_not_pointer hpointee

end Recovery

end TypeRecovery
