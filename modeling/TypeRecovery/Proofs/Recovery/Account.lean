import TypeRecovery.Proofs.Graph.References
import TypeRecovery.Proofs.Recovery.Monotone

/-!
# What the events of a round account for

Every change of a temporary type is noted with the type before, so the events of a round can be
replayed on the types from which it starts: no change is missing, and each starts from the type
that its value has at that moment. The rules by which an edge or a pointer into the frame may
change a type can be read off the events as well, since no value is locked or blocked after the
first guesses.
-/

namespace TypeRecovery

/-- The temporary types after an event, given those before it. There are none if the event says
that a type was replaced that the value did not have. -/
def Event.replay (types : VarnodeId → TypeId) : Event → Option (VarnodeId → TypeId)
  | .entered _ _ => some types
  | .changed v old new _ =>
    if types v = old then some fun w => if w = v then new else types w else none

/-- The events of a pass lead from the given temporary types to its own. -/
def Pass.AccountsFrom (start : VarnodeId → TypeId) (p : Pass) : Prop :=
  p.events.toList.foldlM Event.replay start = some p.state.temporary

namespace Recovery

open TypeTable TypeState

variable {g : Graph} {skip : Bool} {p q : Pass} {start : VarnodeId → TypeId}

/-! ## Replaying a pass -/

/-- An event is added to the account if replaying it gives the next types. -/
theorem accounts_push (h : p.AccountsFrom start) {e : Event}
    (hevents : q.events = p.events.push e)
    (hreplay : e.replay p.state.temporary = some q.state.temporary) : q.AccountsFrom start := by
  rw [Pass.AccountsFrom, hevents, Array.toList_push, List.foldlM_append, h]
  simpa using hreplay

/-- What leaves the temporary types as they are needs no event. -/
theorem accounts_congr (h : p.AccountsFrom start) (hevents : q.events = p.events)
    (htypes : ∀ v, q.state.temporary v = p.state.temporary v) : q.AccountsFrom start := by
  rw [Pass.AccountsFrom, hevents, h, show q.state.temporary = p.state.temporary from funext htypes]

/-- Replaying a change of the type of a value changes it. -/
theorem replay_changed {s : TypeState} {v t : Nat} (hv : v < s.values.size) (cause : Cause) :
    (Event.changed v (s.temporary v) t cause).replay s.temporary =
      some (s.setTemporary v t).temporary := by
  rw [Event.replay, if_pos rfl]
  congr 1
  funext w
  rw [temporary_setTemporary]
  simp only [hv, and_true]

/-- A change is accounted for by the event that it leaves. -/
theorem accounts_setTemporary (h : p.AccountsFrom start) {v : Nat} (hv : v < p.state.values.size)
    (t : Nat) (cause : Cause) : (p.setTemporary v t cause).AccountsFrom start := by
  by_cases hsame : p.state.temporary v = t
  · rw [Pass.setTemporary, if_pos hsame]
    exact h
  · rw [Pass.setTemporary_of_ne hsame]
    exact accounts_push h rfl (replay_changed hv cause)

/-- A first guess is accounted for. -/
theorem accounts_seedValue (h : p.AccountsFrom start) {v : Nat} (hv : v < p.state.values.size) :
    (seedValue g p v).AccountsFrom start := by
  have hguessed : ({ p with state := guessedState p.state v (seedType g p.state v) } :
      Pass).AccountsFrom start := accounts_congr h rfl fun w => temporary_guessedState w
  exact accounts_setTemporary hguessed (size_guessedState.symm ▸ hv) _ .seed

/-- The first guesses are accounted for. -/
theorem accounts_seedValue_foldl (todo : List VarnodeId) (h : p.AccountsFrom start)
    (hlt : ∀ v ∈ todo, v < p.state.values.size) :
    (todo.foldl (seedValue g) p).AccountsFrom start := by
  induction todo generalizing p with
  | nil => exact h
  | cons v rest ih =>
    apply ih (accounts_seedValue h (hlt v List.mem_cons_self))
    intro w hw
    rw [size_seedValue]
    exact hlt w (List.mem_cons_of_mem v hw)

/-- Whether the value that an action gives a type to, other than along an edge, is one that may get
it. -/
def Action.Fits (g : Graph) : Action → Prop
  | .entered _ _ | .offered _ => True
  | .unified v _ => v < g.varnodes.size
  | .aliased v _ => FrameValue g v

/-- The actions of a round are on values of the graph. -/
theorem Phases.fits {pushed unified : Pass} {flows returns frames : List Action} {t : Nat}
    (hg : g.WellFormed) (h : Phases g skip p pushed unified q flows t returns frames) :
    ∀ a ∈ flows ++ (returns ++ frames), a.Fits g := by
  refine h.forall_action (fun _ _ => trivial) (fun _ => trivial) (fun v hv => ?_)
    fun v u hv => hv
  obtain ⟨o, -, hin⟩ := mem_inputs_of_mem_returnedValues hv
  exact hg.lt_of_mem_inputs hin

/-- An action that fits gives a type to a value of the graph. -/
theorem Writes.lt {a : Action} {v t : Nat} {cause : Cause} (hg : g.WellFormed) (ha : a.Fits g)
    (h : Writes g p q a v t cause) : v < g.varnodes.size := by
  have hcauses := h.causes
  cases a with
  | entered root w => exact hcauses.elim
  | offered r => exact hg.lt_of_at? (h.taker r rfl).1
  | unified w u =>
    rw [hcauses.1]
    exact ha
  | aliased w u =>
    rw [hcauses.1]
    exact Graph.WellFormed.lt_of_observable ha.observable

/-- An action is accounted for. -/
theorem accounts_act {a : Action} (skip : Bool) (hg : g.WellFormed) (hp : p.state.Valid)
    (hsize : p.state.values.size = g.varnodes.size) (ha : a.Enabled g p) (hfits : a.Fits g)
    (h : p.AccountsFrom start) : (act g skip p a).AccountsFrom start := by
  rcases act_cases skip hp ha with hquiet | ⟨v, t, cause, hwrites⟩
  · have hsame := funext hquiet.learns.temporary
    cases a with
    | entered root v => exact accounts_push h hquiet.events (congrArg some hsame.symm)
    | offered r => exact accounts_congr h hquiet.events hquiet.learns.temporary
    | unified v t => exact accounts_congr h hquiet.events hquiet.learns.temporary
    | aliased v t => exact accounts_congr h hquiet.events hquiet.learns.temporary
  · obtain ⟨s, hs, hstate⟩ := hwrites.state
    have hlt : v < s.values.size := by
      rw [hs.values, hsize]
      exact hwrites.lt hg hfits
    apply accounts_push h hwrites.events
    rw [hstate, ← replay_changed hlt cause, show s.temporary = p.state.temporary from
      funext hs.temporary]

/-- A run is accounted for. -/
theorem Run.accounts {as : List Action} (h : Run g skip p as q) (hg : g.WellFormed)
    (hp : p.state.Valid) (hsize : p.state.values.size = g.varnodes.size)
    (hfits : ∀ a ∈ as, a.Fits g) (hstart : p.AccountsFrom start) : q.AccountsFrom start := by
  induction h with
  | nil => exact hstart
  | @cons p q a rest ha _ ih =>
    exact ih (act_valid skip hp ha) ((act_later skip hp ha).size.trans hsize)
      (fun b hb => hfits b (List.mem_cons_of_mem a hb))
      (accounts_act skip hg hp hsize ha (hfits a List.mem_cons_self) hstart)

/-! ## The rules for a change -/

/-- The rules for a change by which a value takes a type along an edge. -/
structure EdgeRules (g : Graph) (skip : Bool) (s : TypeState) (o : OpId) (outSlot : Slot)
    (v : VarnodeId) (old new : TypeId) : Prop where
  /-- The value is at the slot to which the edge leads. -/
  slot : (g.op o).at? outSlot = some v
  /-- It is a value of the program. -/
  annotation : Varnode.annotation (g.varnode v) = false
  /-- Its type is not fixed. -/
  locked : s.locked v = false
  /-- It does not stop types on their way up, if the type goes up. -/
  blocked : outSlot.isInput = true → s.blocked v = false
  /-- No merge point is crossed while merge points are left out. -/
  merge : ¬(skip = true ∧ (g.op o).opcode.isMerge = true)
  /-- The new type is strictly more specific. -/
  order : s.types.order new old = .lt

/-- The rules for a change by which a value gets its type from a pointer into the frame. -/
structure AliasRules (g : Graph) (s : TypeState) (v : VarnodeId) : Prop where
  /-- The value is observable. -/
  observable : (g.varnode v).isObservable = true
  /-- Its type is not fixed. -/
  locked : s.locked v = false
  /-- It stores no symbol. -/
  entry : (g.varnode v).entry = none
  /-- It is in the frame. -/
  space : (g.varnode v).address.space = g.stack

/-- The rules for a change, by its cause. -/
def Rules (g : Graph) (skip : Bool) (s : TypeState) (v : VarnodeId) (old new : TypeId) :
    Cause → Prop
  | .edge o _ outSlot => EdgeRules g skip s o outSlot v old new
  | .stackAlias => AliasRules g s v
  | .seed | .unifiedReturn => True

/-- A value of the frame is in the stack space. -/
theorem FrameValue.space (hi : g.Indexed) {v : Nat} (h : FrameValue g v) :
    (g.varnode v).address.space = g.stack := by
  obtain ⟨l, hl, rfl, hspace⟩ := h.located
  rw [← hspace, hi l hl]
  rfl

/-- An action keeps the rules, and a run that follows does not undo them. -/
theorem rules_of_writes {a : Action} {v t : Nat} {cause : Cause} {rest : List Action}
    (hi : g.Indexed) (hp : p.state.Valid) (ha : a.Enabled g p) (hfits : a.Fits g)
    (h : Writes g p (act g skip p a) a v t cause)
    (hrest : Run g skip (act g skip p a) rest q) :
    Rules g skip q.state v (p.state.temporary v) t cause := by
  have hnext := act_valid skip hp ha
  have hlocked : q.state.locked v = false := by
    rw [(hrest.later hnext).locked, (act_later skip hp ha).locked, h.locked]
  have hcauses := h.causes
  cases a with
  | entered root w => exact hcauses.elim
  | offered r =>
    obtain rfl : cause = .edge r.op r.inSlot r.outSlot := hcauses
    have htaken := judge_taken hp (taken_of_writes hp h).1
    refine ⟨htaken.slot, htaken.annotation, hlocked, fun hinput => ?_, htaken.merge, ?_⟩
    · rw [hrest.blocked hnext, act_blocked skip hp ha, htaken.blocked hinput]
    · have hold := (act_later skip hp ha).types.extends.has (hp.temporary v)
      rw [(hrest.later hnext).types.extends.order hnext.types h.has hold]
      exact h.order Cause.noConfusion
  | unified w u =>
    obtain ⟨-, -, rfl⟩ := hcauses
    trivial
  | aliased w u =>
    obtain ⟨rfl, -, rfl⟩ := hcauses
    exact ⟨hfits.observable, hlocked, hfits.entry, hfits.space hi⟩

end Recovery

namespace Routine

open Recovery

variable {r : Routine} {c : Config}

/-- The events of a round account for the temporary types at every moment after the first
guesses. -/
theorem WellFormed.accounts_run (hr : r.WellFormed) (hpos : 0 < r.graph.varnodes.size)
    {skip : Bool} {as : List Action} {p : Pass} (h : Run r.graph skip r.guessed as p)
    (hfits : ∀ a ∈ as, a.Fits r.graph) : p.AccountsFrom r.recommended.temporary := by
  have hstart : ({ state := r.recommended } : Pass).AccountsFrom r.recommended.temporary := rfl
  refine h.accounts hr.graph (hr.guessed_later hpos).2 (hr.size_guessed hpos) hfits
    (accounts_seedValue_foldl r.graph.observables hstart fun v hv => ?_)
  rw [(hr.recommended_spec hpos).1.size, hr.sizes]
  exact Graph.WellFormed.lt_of_observable (hr.graph.mem_observables.mp hv)

/-- The events of a round account for the temporary types that it comes to. -/
theorem WellFormed.accounts_pass (hr : r.WellFormed) (hpos : 0 < r.graph.varnodes.size)
    (c : Config) : (r.pass c).AccountsFrom r.recommended.temporary := by
  obtain ⟨pushed, unified, flows, t, returns, frames, hphases⟩ := hr.phases hpos c
  exact hr.accounts_run hpos hphases.run (hphases.fits hr.graph)

/-- A change that an action of a round makes. The actions `as` were performed before it and led to
the pass `p`, and the actions `rest` are performed after it. -/
structure MadeBy (r : Routine) (c : Config) (as : List Action) (p : Pass) (a : Action)
    (rest : List Action) (v : VarnodeId) (old new : TypeId) (cause : Cause) : Prop where
  /-- The graph has values. -/
  pos : 0 < r.graph.varnodes.size
  /-- The run before the action. -/
  run : Run r.graph (skipsMerges c r.graph) r.guessed as p
  /-- The state in which the action is performed is valid. -/
  valid : p.state.Valid
  /-- The action can be performed. -/
  enabled : a.Enabled r.graph p
  /-- It gives the value its new type. -/
  writes : Writes r.graph p (act r.graph (skipsMerges c r.graph) p a) a v new cause
  /-- The old type is the one that the value has. -/
  old : old = p.state.temporary v
  /-- The run after the action. -/
  later : Run r.graph (skipsMerges c r.graph) (act r.graph (skipsMerges c r.graph) p a) rest
    (r.pass c)
  /-- Actions give types to values that may get them. -/
  fits : ∀ b ∈ as ++ a :: rest, b.Fits r.graph
  /-- Types that values of the frame get come from references. -/
  sourced : Sourced r.graph (skipsMerges c r.graph) r.guessed (as ++ a :: rest)

/-- Every change after the first guesses is made by an action of the pass. -/
theorem WellFormed.exists_madeBy (hr : r.WellFormed) {before after : List Event}
    {v old new : Nat} {cause : Cause}
    (h : (r.pass c).events.toList = before ++ .changed v old new cause :: after)
    (hcause : cause ≠ .seed) :
    ∃ as p a rest, MadeBy r c as p a rest v old new cause ∧ p.events.toList = before := by
  have hpos : 0 < r.graph.varnodes.size := hr.pos_of_events (c := c) fun hnone => by
    rw [hnone] at h
    simp at h
  obtain ⟨pushed, unified, flows, t, returns, frames, hphases⟩ := hr.phases hpos c
  have hvalid := (hr.guessed_later hpos).2
  have hnot : Event.changed v old new cause ∉ r.guessed.events.toList := fun hin => by
    obtain ⟨_, _, _, heq⟩ := seedAll_events r.graph r.recommended _ hin
    cases heq
    exact hcause rfl
  obtain ⟨as, a, rest, p, hactions, hrun, ha, hrest, hevents, hpush⟩ :=
    hphases.run.event_split hvalid h (hphases.run.size_le_of_not_mem hvalid h hnot)
  have hp := hrun.valid hvalid
  obtain ⟨hwrites, hold⟩ := writes_of_changed hp ha hpush
  exact ⟨as, p, a, rest, ⟨hpos, hrun, hp, ha, hwrites, hold, hrest,
    hactions ▸ hphases.fits hr.graph, hactions ▸ hphases.sourced⟩, hevents⟩

/-- The changes of a pass follow the rules. -/
theorem WellFormed.rules_pass (hr : r.WellFormed) (hi : r.graph.Indexed) {v old new : Nat}
    {cause : Cause} (h : .changed v old new cause ∈ (r.pass c).events) :
    Rules r.graph (skipsMerges c r.graph) (r.pass c).state v old new cause := by
  by_cases hcause : cause = .seed
  · rw [hcause]
    trivial
  · obtain ⟨before, after, hsplit⟩ := List.append_of_mem (Array.mem_toList_iff.mpr h)
    obtain ⟨as, p, a, rest, hmade, -⟩ := hr.exists_madeBy hsplit hcause
    have hfits := hmade.fits a (List.mem_append_right as List.mem_cons_self)
    rw [hmade.old]
    exact rules_of_writes hi hmade.valid hmade.enabled hfits hmade.writes hmade.later

/-- The commit at the end of a round does not touch what the rules are about. -/
theorem rules_commitAll {g : Graph} {skip : Bool} {s : TypeState} {v old new : Nat} {cause : Cause}
    (h : Rules g skip s v old new cause) : Rules g skip (commitAll g s).1 v old new cause := by
  obtain ⟨htypes, -, -, hframe⟩ := commitAll_frame g s
  obtain ⟨-, hlocked, hblocked⟩ := hframe v
  cases cause with
  | seed => trivial
  | edge o inSlot outSlot =>
    exact ⟨h.slot, h.annotation, hlocked.trans h.locked, fun hup => hblocked.trans (h.blocked hup),
      h.merge, by rw [htypes]; exact h.order⟩
  | unifiedReturn => trivial
  | stackAlias => exact ⟨h.observable, hlocked.trans h.locked, h.entry, h.space⟩

/-- The events of a round are complete and follow the rules. Replayed in order on the temporary
types that hold when the recommendations are installed, each change starts from the type that its
value has at that moment, and the temporary types of all values at the end of the round come out.
Each change along an edge goes to the value at the end of the edge, which is no annotation, is not
locked and does not stop types on their way up, if the type goes up; it crosses no merge point that
is left out; and the new type is strictly more specific than the old one. Each change through a
pointer into the frame goes to an observable value of the frame that is not locked and stores no
symbol. A call that runs no round notes no event and changes no type. -/
theorem WellFormed.account_runRound (hr : r.WellFormed) (hi : r.graph.Indexed) (c : Config) :
    (r.runRound c).events.toList.foldlM Event.replay r.recommended.temporary =
        some (r.runRound c).routine.state.temporary ∧
      (∀ v old new cause, .changed v old new cause ∈ (r.runRound c).events →
        Rules r.graph (skipsMerges c r.graph) (r.runRound c).routine.state v old new cause) ∧
      (r.apply c = r.runRound c ∨
        (r.apply c).events = #[] ∧ (r.apply c).routine.state = r.state) := by
  have htemporary : (r.runRound c).routine.state.temporary = (r.pass c).state.temporary := by
    funext v
    rw [r.state_runRound]
    exact ((commitAll_frame r.graph (r.pass c).state).2.2.2 v).1
  rw [htemporary, r.events_runRound, r.state_runRound]
  refine ⟨?_, fun v old new cause h => rules_commitAll (hr.rules_pass hi h), ?_⟩
  · by_cases hpos : 0 < r.graph.varnodes.size
    · exact hr.accounts_pass hpos c
    · rw [pass, recover_of_empty c hr.graph (Nat.eq_zero_of_not_pos hpos)]
      rfl
  · rcases r.apply_cases c with hround | ⟨hevents, -, -, hstate⟩
    · exact Or.inl hround
    · exact Or.inr ⟨hevents, hstate⟩

/-- The base register, a locked `int *` computed from it, the place of the frame that the pointer
points to, and a copy of what is there. -/
def frameSlot : Routine :=
  let types := (TypeTable.empty 8).perform (.base 4 .int) |>.perform (.pointer 0 1)
    |>.perform (.spacebase 2 "stack") |>.perform (.pointer 2 1)
  let values := (Routine.empty "f" .simple 2 types).newInput 8 ⟨1, 0⟩ |>.newConstant 8 16
    |>.newVarnode 8 ⟨1, 16⟩ |>.newInput 4 ⟨2, 16⟩ |>.newVarnode 4 ⟨1, 24⟩
  (values.modifyState fun s => (s.lock 0 3).lock 2 1).modifyGraph fun g =>
    (g.setSpaceBase 0).linkOp
        { opcode := .intAdd, address := ⟨1, 0⟩, inputs := [0, 1], output := some 2 }
      |>.linkOp { opcode := .copy, address := ⟨1, 1⟩, inputs := [3], output := some 4 }

/-- The place gets `int` through the pointer, and the copy takes it along the edge of the copy. -/
theorem frameSlot_account :
    frameSlot.WellFormed ∧ frameSlot.graph.Indexed ∧
      .changed 3 5 0 .stackAlias ∈ (frameSlot.runRound {}).events ∧
      .changed 4 5 0 (.edge 1 (.input 0) .output) ∈ (frameSlot.runRound {}).events ∧
      (frameSlot.runRound {}).events.toList.foldlM Event.replay frameSlot.recommended.temporary =
        some (frameSlot.runRound {}).routine.state.temporary ∧
      AliasRules frameSlot.graph (frameSlot.runRound {}).routine.state 3 ∧
      EdgeRules frameSlot.graph (skipsMerges {} frameSlot.graph)
        (frameSlot.runRound {}).routine.state 1 .output 4 5 0 := by
  have hr : frameSlot.WellFormed := by decide +kernel
  have hi : frameSlot.graph.Indexed := by decide +kernel
  have halias : .changed 3 5 0 .stackAlias ∈ (frameSlot.runRound {}).events := by decide +kernel
  have hedge : .changed 4 5 0 (.edge 1 (.input 0) .output) ∈ (frameSlot.runRound {}).events := by
    decide +kernel
  obtain ⟨hreplay, hrules, -⟩ := hr.account_runRound hi {}
  exact ⟨hr, hi, halias, hedge, hreplay, hrules _ _ _ _ halias, hrules _ _ _ _ hedge⟩

end Routine

end TypeRecovery
