import TypeRecovery.Proofs.DataType.Construction
import TypeRecovery.Proofs.Recovery.Round

/-!
# Within a round types become more specific

After the first guesses of a round a temporary type is replaced by a strictly more specific one,
with one exception. The common type of the returned values is chosen once. While it is pushed on
from one returned value, another one may take a type along an edge that is more specific still, and
then the common type replaces the more specific one.
-/

namespace TypeRecovery

namespace Recovery

open TypeTable TypeState

/-- After the unification to `new` had started, the value took a type along an edge that is more
specific than `new`. -/
def Overtaken (types : TypeTable) (events : List Event) (v : VarnodeId) (new : TypeId) : Prop :=
  ∃ before w old after, events = before ++ .changed w old new .unifiedReturn :: after ∧
    ∃ old' t o inSlot outSlot, .changed v old' t (.edge o inSlot outSlot) ∈ after ∧
      types.order t new = .lt

variable {g : Graph} {skip : Bool} {p q : Pass} {a : Action} {as bs : List Action}
  {T : TypeTable} {t v : Nat}

/-- What was overtaken stays overtaken. -/
theorem Overtaken.append {events : List Event} (h : Overtaken T events v t) (news : List Event) :
    Overtaken T (events ++ news) v t := by
  obtain ⟨before, w, old, after, rfl, old', t', o, i, j, hmem, horder⟩ := h
  exact ⟨before, w, old, after ++ news, by rw [List.append_assoc]; rfl, old', t', o, i, j,
    List.mem_append_left news hmem, horder⟩

/-- A traversal step or a replacement by the common type `t`. -/
def Action.IsReturn (t : TypeId) (a : Action) : Prop := a.IsFlow ∨ ∃ v, a = .unified v t

/-- The actions that unify returned values are returns. -/
theorem ReturnTrace.isReturn (h : ReturnTrace g t as) : ∀ a ∈ as, a.IsReturn t := by
  intro a ha
  rcases h.kinds a ha with hflow | ⟨v, -, rfl⟩
  · exact Or.inl hflow
  · exact Or.inr ⟨v, rfl⟩

/-- A return gives the type that was unified. -/
theorem Action.IsReturn.type_eq {w u : Nat} (h : (Action.unified w u).IsReturn t) : u = t := by
  rcases h with hflow | ⟨v, hv⟩
  · cases hflow
  · cases hv
    rfl

/-- What such an action does to the temporary type of a value: nothing, or it installs the common
type, or the value takes a strictly more specific type along an edge. -/
theorem temporary_act (skip : Bool) (hp : p.state.Valid) (ha : a.Enabled g p)
    (hk : a.IsReturn t) (v : Nat) :
    (act g skip p a).state.temporary v = p.state.temporary v ∨
      (act g skip p a).state.temporary v = t ∨
      ∃ o i j, (act g skip p a).state.types.order ((act g skip p a).state.temporary v)
          (p.state.temporary v) = .lt ∧
        (act g skip p a).events = p.events.push (.changed v (p.state.temporary v)
          ((act g skip p a).state.temporary v) (.edge o i j)) := by
  rcases act_cases skip hp ha with hquiet | ⟨w, t', cause, hwrites⟩
  · exact Or.inl (hquiet.learns.temporary v)
  · obtain ⟨s, hs, hstate⟩ := hwrites.state
    have htemp : (act g skip p a).state.temporary v =
        if v = w ∧ w < s.values.size then t' else p.state.temporary v := by
      rw [hstate, temporary_setTemporary, hs.temporary]
    split at htemp
    · rename_i hvw
      obtain ⟨rfl, -⟩ := hvw
      have hcauses := hwrites.causes
      cases a with
      | entered root w => cases hcauses
      | offered r =>
        cases hcauses
        have horder := hwrites.order Cause.noConfusion
        have hevents := hwrites.events
        rw [htemp]
        exact Or.inr (Or.inr ⟨_, _, _, horder, hevents⟩)
      | unified w u =>
        obtain ⟨rfl, rfl, -⟩ := hcauses
        rcases hk with hflow | ⟨x, hx⟩
        · cases hflow
        · cases hx
          exact Or.inr (Or.inl htemp)
      | aliased w u =>
        rcases hk with hflow | ⟨x, hx⟩
        · cases hflow
        · cases hx
    · exact Or.inl htemp

/-- Only the unification of returned values changes a value for their sake. -/
theorem eq_unified_of_causes {a : Action} (h : a.Causes v t .unifiedReturn) : a = .unified v t := by
  cases a with
  | entered root w => cases h
  | offered e => cases h
  | unified w u =>
    obtain ⟨rfl, rfl, -⟩ := h
    rfl
  | aliased w u => cases h.2.2

/-- A value that is at least as specific as a type stays so, if returned values get no other type.
-/
theorem Run.isLE (h : Run g skip p as q) (hp : p.state.Valid)
    (hk : ∀ w u, .unified w u ∈ as → u = t) (hT : q.state.types.Extends T)
    (hle : (T.order (p.state.temporary v) t).isLE = true) :
    (T.order (q.state.temporary v) t).isLE = true := by
  induction h with
  | nil => exact hle
  | @cons p q a rest ha hrest ih =>
    have hnext := act_valid skip hp ha
    apply ih hnext (fun w u hu => hk w u (List.mem_cons_of_mem a hu)) hT
    rcases act_cases skip hp ha with hquiet | ⟨w, t', cause, hwrites⟩
    · rw [hquiet.learns.temporary]
      exact hle
    · obtain ⟨s, hs, hstate⟩ := hwrites.state
      rw [hstate, temporary_setTemporary, hs.temporary]
      split
      · rename_i hvw
        obtain ⟨rfl, -⟩ := hvw
        by_cases hreturn : cause = .unifiedReturn
        · subst hreturn
          obtain rfl := eq_unified_of_causes hwrites.causes
          rw [hk _ _ List.mem_cons_self, order_self]
          rfl
        · have hext := (hrest.later hnext).types.extends.trans hT
          have hhas := (act_later skip hp ha).types.extends.has (hp.temporary v)
          have horder := hwrites.order hreturn
          rw [← hext.order hnext.types hwrites.has hhas] at horder
          exact Std.TransCmp.isLE_trans (by rw [horder]; rfl) hle
      · exact hle

/-- While returned values are unified, a value for which the common type was specific enough is
overtaken, or the common type still is. -/
theorem Run.isLE_or_overtaken (h : Run g skip p as q) (hp : p.state.Valid)
    (hk : ∀ a ∈ as, a.IsReturn t)
    (hstarted : ∃ before w old after,
      p.events.toList = before ++ .changed w old t .unifiedReturn :: after)
    (hle : (T.order t (p.state.temporary v)).isLE = true ∨ Overtaken T p.events.toList v t) :
    (T.order t (q.state.temporary v)).isLE = true ∨ Overtaken T q.events.toList v t := by
  induction h with
  | nil => exact hle
  | @cons p q a rest ha hrest ih =>
    have hnext := act_valid skip hp ha
    obtain ⟨before, w, old, after, hevents⟩ := hstarted
    obtain ⟨news, hnews⟩ : ∃ news, (act g skip p a).events.toList = p.events.toList ++ news :=
      (Run.cons ha .nil : Run g skip p [a] _).events_append hp
    have hlater : (act g skip p a).events.toList =
        before ++ .changed w old t .unifiedReturn :: (after ++ news) := by
      rw [hnews, hevents, List.append_assoc]
      rfl
    apply ih hnext (fun b hb => hk b (List.mem_cons_of_mem a hb)) ⟨_, _, _, _, hlater⟩
    rcases hle with hle | hover
    · rcases temporary_act skip hp ha (hk a List.mem_cons_self) v with
        hsame | hcommon | ⟨o, i, j, -, hpush⟩
      · rw [hsame]
        exact Or.inl hle
      · rw [hcommon, order_self]
        exact Or.inl rfl
      · -- the value took a type along an edge: either the common type is still specific enough,
        -- or this event overtakes it
        rw [hpush, Array.toList_push] at hnews
        have hnew := List.append_cancel_left hnews
        cases horder : T.order t ((act g skip p a).state.temporary v) with
        | lt => exact Or.inl rfl
        | eq => exact Or.inl rfl
        | gt =>
          refine Or.inr ⟨before, w, old, after ++ news, hlater, p.state.temporary v,
            (act g skip p a).state.temporary v, o, i, j, ?_, ?_⟩
          · rw [← hnew]
            exact List.mem_append_right after (List.mem_singleton_self _)
          · rw [T.order_swap, horder]
            rfl
    · rw [hnews]
      exact Or.inr (hover.append news)

/-- An action that changes a value for the sake of the returned values belongs to the second phase
of a round. -/
theorem Phases.split_returns {pushed unified : Pass}
    {flows returns frames before after : List Action}
    (h : Phases g skip p pushed unified q flows t returns frames) {t' : Nat}
    (hsplit : flows ++ (returns ++ frames) = before ++ .unified v t' :: after) :
    t' = t ∧ v ∈ returnedValues g ∧
      ∃ before' after',
        before = flows ++ before' ∧ returns = before' ++ .unified v t' :: after' := by
  have hnotFlow : Action.unified v t' ∉ flows := fun hmem => h.flow.isFlow _ hmem
  have hnotFrame : Action.unified v t' ∉ frames := fun hmem => by
    rcases h.frame.kinds _ hmem with hflow | ⟨w, u, -, heq⟩
    · exact hflow
    · cases heq
  obtain ⟨before', rfl, hrest⟩ : ∃ before', before = flows ++ before' ∧
      returns ++ frames = before' ++ .unified v t' :: after := by
    rcases List.append_eq_append_iff.mp hsplit with ⟨c, hb, hc⟩ | ⟨c, hf, hc⟩
    · exact ⟨c, hb, hc⟩
    · cases c with
      | nil => exact ⟨[], by simpa using hf.symm, hc.symm⟩
      | cons x xs =>
        obtain ⟨rfl, -⟩ := List.cons.inj hc
        exact absurd (hf ▸ List.mem_append_right before List.mem_cons_self) hnotFlow
  obtain ⟨after', hreturns⟩ : ∃ after', returns = before' ++ .unified v t' :: after' := by
    rcases List.append_eq_append_iff.mp hrest with ⟨c, -, hc⟩ | ⟨c, hr, hc⟩
    · exact absurd (hc ▸ List.mem_append_right c List.mem_cons_self) hnotFrame
    · cases c with
      | nil =>
        exact absurd (by rw [show frames = .unified v t' :: after from hc.symm]
                         exact List.mem_cons_self) hnotFrame
      | cons x xs =>
        obtain ⟨rfl, -⟩ := List.cons.inj hc
        exact ⟨xs, hr⟩
  have hmem : Action.unified v t' ∈ returns := by
    rw [hreturns]
    exact List.mem_append_right before' List.mem_cons_self
  rcases h.unifies.kinds _ hmem with hflow | ⟨w, hw, heq⟩
  · cases hflow
  · cases heq
    exact ⟨rfl, hw, before', after', rfl, hreturns⟩

/-- An action that notes a change of a value replaces its type. -/
theorem writes_of_changed (hp : p.state.Valid) (ha : a.Enabled g p) {old new : Nat} {cause : Cause}
    (h : (act g skip p a).events = p.events.push (.changed v old new cause)) :
    Writes g p (act g skip p a) a v new cause ∧ old = p.state.temporary v := by
  rcases act_cases skip hp ha with hquiet | ⟨w, t', cause', hwrites⟩
  · have hevents := hquiet.events
    rw [h] at hevents
    cases a with
    | entered root w => cases Array.push_inj_right.mp hevents
    | offered r => exact absurd (congrArg Array.size hevents) (by simp)
    | unified w u => exact absurd (congrArg Array.size hevents) (by simp)
    | aliased w u => exact absurd (congrArg Array.size hevents) (by simp)
  · have hevents := hwrites.events
    rw [h] at hevents
    cases Array.push_inj_right.mp hevents
    exact ⟨hwrites, rfl⟩

/-- Every change that a run notes is made by one of its actions. -/
theorem Run.exists_writes (h : Run g skip p as q) (hp : p.state.Valid) {news : List Event}
    (hnews : q.events.toList = p.events.toList ++ news) {old new : Nat} {cause : Cause}
    (hmem : .changed v old new cause ∈ news) :
    ∃ a ∈ as, ∃ m, Writes g m (act g skip m a) a v new cause := by
  obtain ⟨front, back, rfl⟩ := List.append_of_mem hmem
  rw [← List.append_assoc] at hnews
  obtain ⟨before, a, after, m, rfl, hm, ha, -, -, hpush⟩ :=
    h.event_split hp hnews (by rw [List.length_append, Array.length_toList]; omega)
  exact ⟨a, List.mem_append_right before List.mem_cons_self, m,
    (writes_of_changed (hm.valid hp) ha hpush).1⟩

/-- After a change the value has the new type. -/
theorem Writes.temporary {new : Nat} {cause : Cause} (h : Writes g p q a v new cause)
    (hv : v < p.state.values.size) : q.state.temporary v = new := by
  obtain ⟨s, hs, hstate⟩ := h.state
  rw [hstate, temporary_setTemporary, if_pos ⟨rfl, by rw [hs.values]; exact hv⟩]

section Unification

variable {pushed unified m : Pass} {flows returns frames before after : List Action}
  (h : Phases g skip p pushed unified q flows t returns frames) (hp : p.state.Valid)
  (hsplit : flows ++ (returns ++ frames) = before ++ .unified v t :: after)
  (hm : Run g skip p before m) (hT : m.state.types.Extends T)

include h hp hsplit hm hT

/-- A value that was overtaken has a type that is at least as specific as the common type. -/
theorem Phases.isLE_of_overtaken (hv : v < p.state.values.size)
    (hseeds : ∀ e ∈ p.events.toList, ∃ v old new, e = .changed v old new .seed)
    (hover : Overtaken T m.events.toList v t) :
    (T.order (m.state.temporary v) t).isLE = true := by
  obtain ⟨-, -, before', after', rfl, hreturns⟩ := h.split_returns hsplit
  obtain ⟨front, w, old, back, hevents, old', t', o, i, j, hmem, horder⟩ := hover
  obtain ⟨mid, rest, rfl⟩ := List.append_of_mem hmem
  have hsplit' : m.events.toList =
      (front ++ .changed w old t .unifiedReturn :: mid) ++
        .changed v old' t' (.edge o i j) :: rest := by
    rw [hevents, List.append_assoc]
    rfl
  have hnot : Event.changed v old' t' (.edge o i j) ∉ p.events.toList := by
    intro hin
    obtain ⟨_, _, _, heq⟩ := hseeds _ hin
    cases heq
  obtain ⟨b₁, a, b₂, n, hb, hn, ha, hrest, -, hpush⟩ :=
    hm.event_split hp hsplit' (hm.size_le_of_not_mem hp hsplit' hnot)
  have hvalid := hn.valid hp
  have hkinds : ∀ w u, .unified w u ∈ b₂ → u = t := by
    intro w u hu
    have hmem : .unified w u ∈ flows ++ before' := by
      rw [hb]
      exact List.mem_append_right b₁ (List.mem_cons_of_mem a hu)
    rcases List.mem_append.mp hmem with hflow | hreturn
    · exact (h.flow.isFlow _ hflow).elim
    · have hin : .unified w u ∈ returns := by
        rw [hreturns]
        exact List.mem_append_left _ hreturn
      exact (h.unifies.isReturn _ hin).type_eq
  apply hrest.isLE (act_valid _ hvalid ha) hkinds hT
  have hlt : v < n.state.values.size := by
    rw [(hn.later hp).size]
    exact hv
  rw [(writes_of_changed hvalid ha hpush).1.temporary hlt, horder]
  rfl

/-- A returned value that was not overtaken has no type that is more specific than the common type.
-/
theorem Phases.isLE_of_not_overtaken (hover : ¬Overtaken T m.events.toList v t) :
    (T.order t (m.state.temporary v)).isLE = true := by
  obtain ⟨-, hv, before', after', rfl, hreturns⟩ := h.split_returns hsplit
  obtain ⟨n, hn, hrest⟩ := hm.split
  obtain rfl := h.flowRun.unique hn
  have hvalid := hn.valid hp
  obtain ⟨hhas, hleast⟩ := h.least (by rw [hreturns]; simp)
  have hstart : (T.order t (n.state.temporary v)).isLE = true := by
    rw [((hrest.later hvalid).types.extends.trans hT).order hvalid.types hhas (hvalid.temporary v)]
    exact hleast v hv
  have hkinds : ∀ x ∈ before', x.IsReturn t := by
    intro x hx
    have hin : x ∈ returns := by
      rw [hreturns]
      exact List.mem_append_left _ hx
    exact h.unifies.isReturn x hin
  cases hrest with
  | nil => exact hstart
  | @cons _ _ a rest ha hrest =>
    -- the first action gives some returned value the common type
    obtain ⟨w, rfl⟩ : ∃ w, a = .unified w t := by
      rcases h.unifies.starts with hnil | ⟨w, tail, hcons⟩
      · rw [hnil] at hreturns
        cases hreturns
      · rw [hcons] at hreturns
        exact ⟨w, (List.cons.inj hreturns).1.symm⟩
    have hnext := act_valid skip hvalid ha
    have hevents : (act g skip n (.unified w t)).events.toList =
        n.events.toList ++ .changed w (n.state.temporary w) t .unifiedReturn :: [] := by
      rw [act, Pass.setTemporary_of_ne ha.2.2.1, Array.toList_push]
    have hle : (T.order t ((act g skip n (.unified w t)).state.temporary v)).isLE = true := by
      rw [act, Pass.state_setTemporary, temporary_setTemporary]
      split
      · rw [order_self]
        rfl
      · exact hstart
    rcases hrest.isLE_or_overtaken hnext (fun b hb => hkinds b (List.mem_cons_of_mem _ hb))
      ⟨_, _, _, _, hevents⟩ (Or.inl hle) with hle' | hover'
    · exact hle'
    · exact absurd hover' hover

end Unification

/-- The common type is more specific than what it replaces exactly if the value was not
overtaken. -/
theorem Phases.order_unified_iff {pushed unified m : Pass}
    {flows returns frames before after : List Action}
    (h : Phases g skip p pushed unified q flows t returns frames) (hp : p.state.Valid)
    (hv : v < p.state.values.size)
    (hseeds : ∀ e ∈ p.events.toList, ∃ v old new, e = .changed v old new .seed)
    (hsplit : flows ++ (returns ++ frames) = before ++ .unified v t :: after)
    (hm : Run g skip p before m) (hne : t ≠ m.state.temporary v)
    (hT : m.state.types.Extends T) :
    T.order t (m.state.temporary v) = .lt ↔ ¬Overtaken T m.events.toList v t := by
  constructor
  · intro hlt hover
    have hle := h.isLE_of_overtaken hp hsplit hm hT hv hseeds hover
    rw [T.order_swap, hlt] at hle
    cases hle
  · intro hover
    exact order_lt_of_isLE (h.isLE_of_not_overtaken hp hsplit hm hT hover) hne

end Recovery

open Recovery

/-- After the first guesses of a round every change of a temporary type makes it strictly more
specific, except where the common type of the returned values replaces the type of a value that was
overtaken: then, and only then, the new type is not more specific than the old one. -/
theorem Routine.WellFormed.order_changed_iff {r : Routine} (hr : r.WellFormed) (c : Config)
    {before after : List Event} {v old new : Nat} {cause : Cause}
    (h : (r.apply c).events.toList = before ++ .changed v old new cause :: after)
    (hcause : cause ≠ .seed) :
    (r.apply c).routine.state.types.order new old = .lt ↔
      ¬(cause = .unifiedReturn ∧
        Overtaken (r.apply c).routine.state.types before v new) := by
  have hround : r.apply c = r.runRound c := by
    rcases r.apply_cases c with hround | ⟨hnone, -⟩
    · exact hround
    · rw [hnone] at h
      exact absurd h (by simp)
  rw [hround, r.events_runRound] at h
  rw [hround, r.state_runRound, (commitAll_frame _ _).1]
  have hpos : 0 < r.graph.varnodes.size := hr.pos_of_events (c := c) fun hnone => by
    rw [hnone] at h
    exact absurd h (by simp)
  obtain ⟨pushed, unified, flows, t, returns, frames, hphases⟩ := hr.phases hpos c
  have hvalid := (hr.guessed_later hpos).2
  have hseeds := seedAll_events r.graph r.recommended
  have hnot : Event.changed v old new cause ∉ r.guessed.events.toList := fun hin => by
    obtain ⟨_, _, _, heq⟩ := hseeds _ hin
    cases heq
    exact hcause rfl
  obtain ⟨b, a, b', m, hsplit, hm, ha, hrest, hevents, hpush⟩ :=
    hphases.run.event_split hvalid h (hphases.run.size_le_of_not_mem hvalid h hnot)
  have hmvalid := hm.valid hvalid
  have hnext := act_valid (skipsMerges c r.graph) hmvalid ha
  obtain ⟨hwrites, rfl⟩ := writes_of_changed hmvalid ha hpush
  have hT := (hrest.later hnext).types.extends
  by_cases hreturn : cause = .unifiedReturn
  · subst hreturn
    obtain rfl := eq_unified_of_causes hwrites.causes
    obtain ⟨rfl, hmem, -⟩ := hphases.split_returns hsplit
    have hv : v < r.guessed.state.values.size := by
      obtain ⟨o, -, hin⟩ := mem_inputs_of_mem_returnedValues hmem
      rw [hr.size_guessed hpos]
      exact hr.graph.lt_of_mem_inputs hin
    rw [hphases.order_unified_iff hvalid hv hseeds hsplit hm hwrites.ne
      ((act_later _ hmvalid ha).types.extends.trans hT), hevents]
    exact not_congr ⟨fun hover => ⟨rfl, hover⟩, fun hover => hover.2⟩
  · have horder := hwrites.order hreturn
    rw [← hT.order hnext.types hwrites.has
      ((act_later _ hmvalid ha).types.extends.has (hmvalid.temporary v))] at horder
    exact iff_of_true horder fun hboth => hreturn hboth.1

/-- Three values are returned: a locked `s * *`, an input, and what is loaded through the input. The
input gets the common type `s * *`, the load takes `s *` from it, and then the load, too, gets the
common type. -/
def overtakenReturn : Routine :=
  let types := (TypeTable.empty 8).perform (.base 4 .int)
    |>.perform (.struct "s" 16 [⟨0, "a", 0⟩]) |>.perform (.pointer 1 1) |>.perform (.pointer 2 1)
  let values := (Routine.empty "f" .simple 2 types).newInput 8 ⟨1, 0⟩ |>.newInput 8 ⟨1, 8⟩
    |>.newVarnode 8 ⟨1, 16⟩ |>.newConstant 8 1
  (values.modifyState (·.lock 0 3)).modifyGraph fun g =>
    g.linkOp { opcode := .load, address := ⟨1, 0⟩, inputs := [3, 1], output := some 2 }
      |>.linkOp { opcode := .ret, address := ⟨1, 1⟩, inputs := [3, 0], output := none }
      |>.linkOp { opcode := .ret, address := ⟨1, 2⟩, inputs := [3, 1], output := none }
      |>.linkOp { opcode := .ret, address := ⟨1, 3⟩, inputs := [3, 2], output := none }

/-- The more specific `s *` of the load is replaced by `s * *`. -/
theorem overtakenReturn_order_changed :
    overtakenReturn.WellFormed ∧
      (overtakenReturn.apply {}).events.toList =
        (overtakenReturn.apply {}).events.toList.take 10 ++
          .changed 2 2 3 .unifiedReturn :: (overtakenReturn.apply {}).events.toList.drop 11 ∧
      (overtakenReturn.apply {}).routine.state.types.order 3 2 = .gt ∧
      Overtaken (overtakenReturn.apply {}).routine.state.types
        ((overtakenReturn.apply {}).events.toList.take 10) 2 3 := by
  have hr : overtakenReturn.WellFormed := by decide +kernel
  have hevents : (overtakenReturn.apply {}).events.toList =
      (overtakenReturn.apply {}).events.toList.take 10 ++
        .changed 2 2 3 .unifiedReturn :: (overtakenReturn.apply {}).events.toList.drop 11 := by
    decide +kernel
  have horder : (overtakenReturn.apply {}).routine.state.types.order 3 2 = .gt := by
    decide +kernel
  refine ⟨hr, hevents, horder, ?_⟩
  by_contra hnot
  have hlt := (hr.order_changed_iff {} hevents Cause.noConfusion).mpr fun h => hnot h.2
  rw [horder] at hlt
  cases hlt

end TypeRecovery
