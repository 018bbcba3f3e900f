import TypeRecovery.Proofs.Recovery.Flow

/-!
# Runs of a pass

After the first guesses a pass is a sequence of four kinds of actions: a traversal enters a value,
a type is offered along an edge, a returned value gets the common type, and a value of the frame
gets its type through a pointer. What one action can do is said once, and what it keeps is kept by
every run.
-/

namespace TypeRecovery

namespace TypeState

/-- The second state is reached from the first within a round: types and choices are only added, and
only temporary types are replaced and values blocked. -/
structure Later (s s' : TypeState) : Prop where
  /-- The table grew by atoms and pointers. -/
  types : s.types.Grows s'.types
  /-- Fields that were chosen stay chosen. -/
  choices : ∀ (o : Nat) slot field, s.choice? o slot = some field →
    s'.choice? o slot = some field
  /-- The number of values is the same. -/
  size : s'.values.size = s.values.size
  /-- Committed types are the same. -/
  committed : ∀ v, s'.committed v = s.committed v
  /-- The same values are locked. -/
  locked : ∀ v, s'.locked v = s.locked v
  /-- Blocked values stay blocked. -/
  blocked : ∀ v, s.blocked v = true → s'.blocked v = true

variable {s s' s'' : TypeState}

/-- A state comes after itself. -/
theorem Later.refl (s : TypeState) : s.Later s :=
  ⟨.refl, fun _ _ _ h => h, rfl, fun _ => rfl, fun _ => rfl, fun _ h => h⟩

/-- What comes later than a later state comes later. -/
theorem Later.trans (h : s.Later s') (h' : s'.Later s'') : s.Later s'' where
  types := h.types.trans h'.types
  choices o slot field hf := h'.choices o slot field (h.choices o slot field hf)
  size := h'.size.trans h.size
  committed v := (h'.committed v).trans (h.committed v)
  locked v := (h'.locked v).trans (h.locked v)
  blocked v hb := h'.blocked v (h.blocked v hb)

/-- A state that has learned comes later. -/
theorem Learns.later (h : s.Learns s') : s.Later s' where
  types := h.types
  choices := h.choices
  size := by rw [h.values]
  committed := h.committed
  locked := h.locked
  blocked v hb := (h.blocked v).trans hb

/-- A replaced temporary type makes a later state. -/
theorem later_setTemporary (s : TypeState) (v t : Nat) : s.Later (s.setTemporary v t) :=
  ⟨.refl, fun _ _ _ h => h, size_setTemporary, fun _ => committed_setTemporary,
    fun _ => locked_setTemporary, fun _ hb => blocked_setTemporary.trans hb⟩

end TypeState

/-- Replacing a temporary type by another one is noted. -/
theorem Pass.setTemporary_of_ne {p : Pass} {v t : Nat} {cause : Cause}
    (h : p.state.temporary v ≠ t) :
    p.setTemporary v t cause = { p with
      state := p.state.setTemporary v t
      events := p.events.push (.changed v (p.state.temporary v) t cause) } := by
  rw [Pass.setTemporary, if_neg h]

@[simp] theorem Pass.state_setTemporary (p : Pass) (v t : Nat) (cause : Cause) :
    (p.setTemporary v t cause).state = p.state.setTemporary v t := by
  rw [Pass.setTemporary]
  split
  · rename_i h
    exact (TypeState.setTemporary_eq_self h).symm
  · rfl

@[simp] theorem Pass.stats_setTemporary (p : Pass) (v t : Nat) (cause : Cause) :
    (p.setTemporary v t cause).stats = p.stats := by
  rw [Pass.setTemporary]
  split <;> rfl

/-- Replacing a temporary type notes this change or nothing. -/
theorem Pass.events_setTemporary (p : Pass) (v t : Nat) (cause : Cause) :
    (p.setTemporary v t cause).events = p.events ∨
      (p.setTemporary v t cause).events =
        p.events.push (.changed v (p.state.temporary v) t cause) := by
  rw [Pass.setTemporary]
  split
  · exact Or.inl rfl
  · exact Or.inr rfl

namespace Recovery

open TypeTable TypeState

/-- One step of a pass. -/
inductive Action where
  /-- A traversal that started at `root` enters a value. -/
  | entered (root value : VarnodeId)
  /-- A type is offered along an edge. -/
  | offered (edge : EdgeRef)
  /-- A returned value gets the type of the returned values. -/
  | unified (value : VarnodeId) (type : TypeId)
  /-- A value of the frame gets its type from a pointer into the frame. -/
  | aliased (value : VarnodeId) (type : TypeId)
  deriving DecidableEq

/-- The pass after an action. -/
def act (g : Graph) (skip : Bool) (p : Pass) : Action → Pass
  | .entered root v => p.enter root v
  | .offered r =>
    let result := offer g skip p.countTried r
    if result.taken then result.pass.countAccepted else result.pass
  | .unified v t => p.setTemporary v t .unifiedReturn
  | .aliased v t => p.setTemporary v t .stackAlias

/-- When a pass performs an action. -/
def Action.Enabled (g : Graph) (p : Pass) : Action → Prop
  | .entered _ _ => True
  | .offered _ => True
  | .unified v t =>
    p.state.types.Has t ∧ p.state.locked v = false ∧ p.state.temporary v ≠ t ∧
      ¬(p.state.types.metatype t = .bool ∧ 1 < (g.varnode v).mask)
  | .aliased v t =>
    p.state.types.Has t ∧ p.state.locked v = false ∧
      p.state.types.order t (p.state.temporary v) = .lt ∧
      ∃ pointee offset, p.state.types.Has pointee ∧
        p.state.types.exactPiece pointee offset (g.varnode v).size = some t

/-- Whether an action belongs to a traversal. -/
def Action.IsFlow : Action → Prop
  | .entered _ _ | .offered _ => True
  | .unified _ _ | .aliased _ _ => False

instance : DecidablePred Action.IsFlow
  | .entered _ _ | .offered _ => .isTrue trivial
  | .unified _ _ | .aliased _ _ => .isFalse id

/-- A pass performs actions one after the other. -/
inductive Run (g : Graph) (skip : Bool) : Pass → List Action → Pass → Prop where
  | nil {p : Pass} : Run g skip p [] p
  | cons {p q : Pass} {a : Action} {rest : List Action} : a.Enabled g p →
      Run g skip (act g skip p a) rest q → Run g skip p (a :: rest) q

variable {g : Graph} {skip : Bool} {p q : Pass} {a : Action} {as : List Action}

namespace Run

variable {m : Pass} {bs : List Action}

/-- Runs may follow one another. -/
theorem append (h : Run g skip p as m) (h' : Run g skip m bs q) : Run g skip p (as ++ bs) q := by
  induction h with
  | nil => exact h'
  | cons ha _ ih => exact .cons ha (ih h')

/-- The actions determine where a run leads. -/
theorem unique {q' : Pass} (h : Run g skip p as q) (h' : Run g skip p as q') : q' = q := by
  induction h with
  | nil => cases h'; rfl
  | cons _ _ ih =>
    cases h' with
    | cons _ hrest => exact ih hrest

/-- A run can be cut anywhere. -/
theorem split (h : Run g skip p (as ++ bs) q) : ∃ m, Run g skip p as m ∧ Run g skip m bs q := by
  induction as generalizing p with
  | nil => exact ⟨p, .nil, h⟩
  | cons a rest ih =>
    cases h with
    | cons ha hrest =>
      obtain ⟨m, hm, hbs⟩ := ih hrest
      exact ⟨m, .cons ha hm, hbs⟩

/-- A run can be cut before any of its actions. -/
theorem split_cons (h : Run g skip p (as ++ a :: bs) q) :
    ∃ m, Run g skip p as m ∧ a.Enabled g m ∧ Run g skip (act g skip m a) bs q := by
  obtain ⟨m, hm, hrest⟩ := h.split
  cases hrest with
  | cons ha hbs => exact ⟨m, hm, ha, hbs⟩

end Run

/-- Actions of traversals can be performed in every pass. -/
theorem run_foldl_act (g : Graph) (skip : Bool) (p : Pass) {as : List Action}
    (h : ∀ a ∈ as, a.IsFlow) : Run g skip p as (as.foldl (act g skip) p) := by
  induction as generalizing p with
  | nil => exact .nil
  | cons a rest ih =>
    refine .cons ?_ (ih (act g skip p a) fun b hb => h b (List.mem_cons_of_mem a hb))
    have ha := h a List.mem_cons_self
    cases a with
    | entered root v => trivial
    | offered e => trivial
    | unified v t => cases ha
    | aliased v t => cases ha

/-! ## What one action can do -/

/-- An action that replaces no temporary type. -/
structure Quiet (p q : Pass) (a : Action) : Prop where
  /-- Types and choices may be added. -/
  learns : p.state.Learns q.state
  /-- Entering a value is noted. -/
  events : q.events = match a with
    | .entered root v => p.events.push (.entered root v)
    | _ => p.events

/-- Whether an action replaces the type of a value by another for a given cause. -/
def Action.Causes : Action → VarnodeId → TypeId → Cause → Prop
  | .entered _ _, _, _, _ => False
  | .offered r, _, _, cause => cause = .edge r.op r.inSlot r.outSlot
  | .unified v t, v', t', cause => v' = v ∧ t' = t ∧ cause = .unifiedReturn
  | .aliased v t, v', t', cause => v' = v ∧ t' = t ∧ cause = .stackAlias

/-- An action that replaces the temporary type of a value. -/
structure Writes (g : Graph) (p q : Pass) (a : Action) (v t : Nat) (cause : Cause) : Prop where
  /-- Types and choices may be added before. -/
  state : ∃ s, p.state.Learns s ∧ q.state = s.setTemporary v t
  /-- The replacement is noted. -/
  events : q.events = p.events.push (.changed v (p.state.temporary v) t cause)
  /-- The action has the cause. -/
  causes : a.Causes v t cause
  /-- The new type exists. -/
  has : q.state.types.Has t
  /-- It is another one. -/
  ne : t ≠ p.state.temporary v
  /-- The type of the value was not fixed. -/
  locked : p.state.locked v = false
  /-- Except at the unification of returned values the new type is more specific. -/
  order : cause ≠ .unifiedReturn → q.state.types.order t (p.state.temporary v) = .lt
  /-- An offer is taken by the value at its slot, which is no annotation. -/
  taker : ∀ r, a = .offered r →
    (g.op r.op).at? r.outSlot = some v ∧ Varnode.annotation (g.varnode v) = false

/-- An offer leaves the temporary types as they are, or the destination takes the type. -/
theorem act_offered (g : Graph) (skip : Bool) (hp : p.state.Valid) (r : EdgeRef) :
    (judge g skip p.state r).taken = none ∧
        Quiet p (act g skip p (.offered r)) (.offered r) ∧
        (act g skip p (.offered r)).state = (judge g skip p.state r).state ∨
      ∃ v t, (judge g skip p.state r).taken = some (v, t) ∧
        (act g skip p (.offered r)).state = (judge g skip p.state r).state.setTemporary v t ∧
        Writes g p (act g skip p (.offered r)) (.offered r) v t
          (.edge r.op r.inSlot r.outSlot) := by
  have hlearns := judge_learns g skip hp r
  have hstate : p.countTried.state = p.state := rfl
  rw [act, offer_eq, hstate]
  cases ht : (judge g skip p.state r).taken with
  | none => exact Or.inl ⟨rfl, ⟨hlearns, rfl⟩, rfl⟩
  | some taken =>
    obtain ⟨v, t⟩ := taken
    have htaken := judge_taken hp ht
    have hne := ne_of_order_lt htaken.order
    have hold : (judge g skip p.state r).state.temporary v ≠ t := by
      rw [hlearns.temporary]
      exact hne.symm
    dsimp only
    rw [if_pos rfl, Pass.setTemporary_of_ne hold]
    refine Or.inr ⟨v, t, rfl, rfl, ⟨_, hlearns, rfl⟩, ?_, rfl, htaken.has, hne, htaken.locked,
      fun _ => htaken.order, fun _ he => ?_⟩
    · rw [← hlearns.temporary]
      rfl
    · cases he
      exact ⟨htaken.slot, htaken.annotation⟩

/-- The value whose type an offer replaces took it. -/
theorem taken_of_writes (hp : p.state.Valid) {r : EdgeRef} {v t : Nat} {cause : Cause}
    (h : Writes g p (act g skip p (.offered r)) (.offered r) v t cause) :
    (judge g skip p.state r).taken = some (v, t) ∧
      (act g skip p (.offered r)).state = (judge g skip p.state r).state.setTemporary v t := by
  rcases act_offered g skip hp r with ⟨-, hquiet, -⟩ | ⟨w, u, htaken, hstate, hwrites⟩
  · exact absurd (congrArg Array.size (hquiet.events.symm.trans h.events)) (by simp)
  · cases Array.push_inj_right.mp (hwrites.events.symm.trans h.events)
    exact ⟨htaken, hstate⟩

/-- What an action can do: it replaces the temporary type of one value, or of none. -/
theorem act_cases (skip : Bool) (hp : p.state.Valid) (ha : a.Enabled g p) :
    Quiet p (act g skip p a) a ∨ ∃ v t cause, Writes g p (act g skip p a) a v t cause := by
  cases a with
  | entered root v => exact Or.inl ⟨.refl _, rfl⟩
  | offered r =>
    rcases act_offered g skip hp r with ⟨-, hquiet, -⟩ | ⟨v, t, -, -, hwrites⟩
    · exact Or.inl hquiet
    · exact Or.inr ⟨v, t, _, hwrites⟩
  | unified v t =>
    obtain ⟨hhas, hlocked, hne, -⟩ := ha
    rw [act, Pass.setTemporary_of_ne hne]
    exact Or.inr ⟨v, t, .unifiedReturn, ⟨_, .refl _, rfl⟩, rfl, ⟨rfl, rfl, rfl⟩, hhas, hne.symm,
      hlocked, fun h => absurd rfl h, fun _ h => by cases h⟩
  | aliased v t =>
    obtain ⟨hhas, hlocked, horder, -⟩ := ha
    have hne := ne_of_order_lt horder
    rw [act, Pass.setTemporary_of_ne hne.symm]
    exact Or.inr ⟨v, t, .stackAlias, ⟨_, .refl _, rfl⟩, rfl, ⟨rfl, rfl, rfl⟩, hhas, hne,
      hlocked, fun _ => horder, fun _ h => by cases h⟩

section Step

variable (skip) (hp : p.state.Valid) (ha : a.Enabled g p)

include hp ha

/-- An action leads to a later state. -/
theorem act_later : p.state.Later (act g skip p a).state := by
  rcases act_cases skip hp ha with hquiet | ⟨v, t, cause, hwrites⟩
  · exact hquiet.learns.later
  · obtain ⟨s, hs, hstate⟩ := hwrites.state
    rw [hstate]
    exact hs.later.trans (later_setTemporary s v t)

/-- An action keeps the state valid. -/
theorem act_valid : (act g skip p a).state.Valid := by
  rcases act_cases skip hp ha with hquiet | ⟨v, t, cause, hwrites⟩
  · exact hquiet.learns.valid hp
  · obtain ⟨s, hs, hstate⟩ := hwrites.state
    have hhas := hwrites.has
    rw [hstate] at hhas ⊢
    exact (hs.valid hp).setTemporary hhas

/-- An action blocks no value. -/
theorem act_blocked (v : Nat) : (act g skip p a).state.blocked v = p.state.blocked v := by
  rcases act_cases skip hp ha with hquiet | ⟨w, t, cause, hwrites⟩
  · exact hquiet.learns.blocked v
  · obtain ⟨s, hs, hstate⟩ := hwrites.state
    rw [hstate, blocked_setTemporary, hs.blocked]

/-- An action notes at most one event. -/
theorem act_events : (act g skip p a).events = p.events ∨
    ∃ e, (act g skip p a).events = p.events.push e := by
  rcases act_cases skip hp ha with hquiet | ⟨v, t, cause, hwrites⟩
  · cases a with
    | entered root v => exact Or.inr ⟨_, hquiet.events⟩
    | offered r => exact Or.inl hquiet.events
    | unified v t => exact Or.inl hquiet.events
    | aliased v t => exact Or.inl hquiet.events
  · exact Or.inr ⟨_, hwrites.events⟩

end Step

/-! ## What a run keeps -/

namespace Run

variable (h : Run g skip p as q) (hp : p.state.Valid)

include h hp

/-- A run leads to a later state that is valid. -/
theorem later_and_valid : p.state.Later q.state ∧ q.state.Valid := by
  induction h with
  | nil => exact ⟨.refl _, hp⟩
  | cons ha _ ih =>
    obtain ⟨hlater, hvalid⟩ := ih (act_valid skip hp ha)
    exact ⟨(act_later skip hp ha).trans hlater, hvalid⟩

/-- A run leads to a later state. -/
theorem later : p.state.Later q.state := (h.later_and_valid hp).1

/-- A run keeps the state valid. -/
theorem valid : q.state.Valid := (h.later_and_valid hp).2

/-- A run blocks no value. -/
theorem blocked (v : Nat) : q.state.blocked v = p.state.blocked v := by
  induction h with
  | nil => rfl
  | cons ha _ ih => rw [ih (act_valid skip hp ha), act_blocked skip hp ha]

/-- A run keeps the temporary type of a value that none of its actions writes. -/
theorem temporary_of_not_writes {v : Nat}
    (hv : ∀ m : Pass, p.state.Later m.state → ∀ a ∈ as, ∀ t cause,
      ¬Writes g m (act g skip m a) a v t cause) :
    q.state.temporary v = p.state.temporary v := by
  induction h with
  | nil => rfl
  | @cons p q a rest ha _ ih =>
    have hlater := act_later skip hp ha
    have hstep : (act g skip p a).state.temporary v = p.state.temporary v := by
      rcases act_cases skip hp ha with hquiet | ⟨w, t, cause, hwrites⟩
      · exact hquiet.learns.temporary v
      · have hne : v ≠ w := by
          rintro rfl
          exact hv p (.refl _) a List.mem_cons_self t cause hwrites
        obtain ⟨s, hs, hstate⟩ := hwrites.state
        rw [hstate, temporary_setTemporary_ne hne, hs.temporary]
    rw [ih (act_valid skip hp ha) fun m hm b hb => hv m (hlater.trans hm) b
      (List.mem_cons_of_mem a hb), hstep]

/-- Events are only added. -/
theorem events_append : ∃ news, q.events.toList = p.events.toList ++ news := by
  induction h with
  | nil => exact ⟨[], (List.append_nil _).symm⟩
  | @cons p q a rest ha _ ih =>
    obtain ⟨news, hnews⟩ := ih (act_valid skip hp ha)
    rcases act_events skip hp ha with hsame | ⟨e, hpush⟩
    · exact ⟨news, by rw [hnews, hsame]⟩
    · exact ⟨e :: news, by rw [hnews, hpush, Array.toList_push, List.append_assoc]; rfl⟩

/-- An event that was not noted before the run comes after those that were. -/
theorem size_le_of_not_mem {pre post : List Event} {e : Event}
    (he : q.events.toList = pre ++ e :: post) (hnot : e ∉ p.events.toList) :
    p.events.size ≤ pre.length := by
  obtain ⟨news, hnews⟩ := h.events_append hp
  apply Nat.le_of_not_lt
  intro hlt
  apply hnot
  have hget : (p.events.toList ++ news)[pre.length]? = some e := by
    rw [← hnews, he, List.getElem?_append_right (Nat.le_refl _), Nat.sub_self]
    rfl
  rw [List.getElem?_append_left (by simpa using hlt)] at hget
  exact List.mem_of_getElem? hget

/-- Every event of a run is the event of one of its actions. -/
theorem event_split {pre post : List Event} {e : Event} (he : q.events.toList = pre ++ e :: post)
    (hlen : p.events.size ≤ pre.length) :
    ∃ before a after m, as = before ++ a :: after ∧ Run g skip p before m ∧ a.Enabled g m ∧
      Run g skip (act g skip m a) after q ∧ m.events.toList = pre ∧
      (act g skip m a).events = m.events.push e := by
  induction h with
  | @nil p =>
    have hsize := congrArg List.length he
    simp only [Array.length_toList, List.length_append, List.length_cons] at hsize
    omega
  | @cons p q a rest ha hrest ih =>
    have hnext := act_valid skip hp ha
    rcases act_events skip hp ha with hsame | ⟨e', hpush⟩
    · obtain ⟨before, b, after, m, hsplit, hrun, hafter⟩ := ih hnext he (by rw [hsame]; exact hlen)
      exact ⟨a :: before, b, after, m, by rw [hsplit]; rfl, .cons ha hrun, hafter⟩
    · by_cases hfirst : p.events.size = pre.length
      · -- the event is the one noted by the first action
        obtain ⟨news, hnews⟩ := hrest.events_append hnext
        rw [hpush, Array.toList_push, he, List.append_assoc] at hnews
        obtain ⟨hpre, htail⟩ := List.append_inj hnews (by simpa using hfirst.symm)
        obtain ⟨rfl, -⟩ := List.cons.inj htail
        exact ⟨[], a, rest, p, rfl, .nil, ha, hrest, hpre.symm, hpush⟩
      · have hlater : (act g skip p a).events.size ≤ pre.length := by
          rw [hpush, Array.size_push]
          omega
        obtain ⟨before, b, after, m, hsplit, hrun, hafter⟩ := ih hnext he hlater
        exact ⟨a :: before, b, after, m, by rw [hsplit]; rfl, .cons ha hrun, hafter⟩

end Run

end Recovery

end TypeRecovery
