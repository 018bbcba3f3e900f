import TypeRecovery.Proofs.DataType.Construction
import TypeRecovery.Proofs.Recovery.Replay
import TypeRecovery.Proofs.Recovery.Round

/-!
# Rounds that repeat

A second round starts from other committed types, a larger table of types, recorded choices of
fields and blocked values. If neither pointer steps nor the base register see the difference, it
makes the same first guesses, the pass after them is a replay of the first, and the commit finds
nothing to do.
-/

namespace TypeRecovery

attribute [ext] Typing

namespace TypeState

variable {s s' s'' : TypeState}

/-- The second state differs from the first by temporary types. -/
structure Retypes (s s' : TypeState) : Prop where
  /-- The table is the same. -/
  types : s'.types = s.types
  /-- The choices of fields are the same. -/
  choices : s'.choices = s.choices
  /-- The number of values is the same. -/
  size : s'.values.size = s.values.size
  /-- Committed types are the same. -/
  committed : ∀ v, s'.committed v = s.committed v
  /-- The same values are locked. -/
  locked : ∀ v, s'.locked v = s.locked v
  /-- The same values are blocked. -/
  blocked : ∀ v, s'.blocked v = s.blocked v

/-- A state differs from itself in no more than temporary types. -/
theorem Retypes.refl (s : TypeState) : s.Retypes s :=
  ⟨rfl, rfl, rfl, fun _ => rfl, fun _ => rfl, fun _ => rfl⟩

/-- Temporary types may be replaced one after the other. -/
theorem Retypes.trans (h : s.Retypes s') (h' : s'.Retypes s'') : s.Retypes s'' where
  types := h'.types.trans h.types
  choices := h'.choices.trans h.choices
  size := h'.size.trans h.size
  committed v := (h'.committed v).trans (h.committed v)
  locked v := (h'.locked v).trans (h.locked v)
  blocked v := (h'.blocked v).trans (h.blocked v)

/-- Replacing a temporary type changes nothing else. -/
theorem retypes_setTemporary (s : TypeState) (v t : Nat) : s.Retypes (s.setTemporary v t) :=
  ⟨rfl, rfl, size_setTemporary, fun _ => committed_setTemporary, fun _ => locked_setTemporary,
    fun _ => blocked_setTemporary⟩

end TypeState

/-- What is fixed stays the same while one state moves on and the other one changes temporary types.
-/
theorem Transfer.SameFixed.of_retypes {g : Graph} {s s' s₁ s₁' : TypeState}
    (h : SameFixed g s s') (hlater : s.Later s₁) (hretypes : s'.Retypes s₁') :
    SameFixed g s₁ s₁' where
  locked v := by rw [hretypes.locked, hlater.locked, h.locked]
  fixed v hv := by
    rw [hretypes.committed, hlater.committed, h.fixed v ((hlater.locked v).symm.trans hv)]
  stepped o v ho hv := by rw [hretypes.committed, hlater.committed, h.stepped o v ho hv]

namespace Recovery

open TypeTable TypeState

variable {g : Graph} {skip : Bool} {s s' : TypeState} {p p' q : Pass} {as : List Action}

/-! ## First guesses -/

/-- A first guess changes the type of its value only. -/
theorem temporary_seedValue (g : Graph) (p : Pass) (v w : Nat) :
    (seedValue g p v).state.temporary w =
      if w = v ∧ v < p.state.values.size then (seedType g p.state v).id
      else p.state.temporary w := by
  rw [state_seedValue, temporary_setTemporary, size_guessedState, temporary_guessedState]

/-- A guess that was made before is made again, and only a temporary type changes. -/
theorem state_seedValue_again (hp : p.state.Valid) (hg : g.TypesIn p.state.types)
    (hsame : Transfer.SameFixed g p.state p'.state) {v : Nat}
    (hu : (seedValue g p v).state.types.Extends p'.state.types)
    (hblocked : (seedType g p.state v).blocks = true → p'.state.blocked v = true) :
    (seedValue g p' v).state = p'.state.setTemporary v (seedType g p.state v).id := by
  rw [state_seedValue, types_setTemporary, types_guessedState] at hu
  rw [state_seedValue, seedType_again hp hg hsame hu]
  congr 1
  rw [guessedState]
  split
  · rename_i hb
    exact block_eq_self (hblocked hb)
  · rfl

/-- Guessing again, where all types that were guessed exist already, gives the same types again. -/
theorem seedValue_foldl_again (todo : List VarnodeId) (p p' : Pass) (hp : p.state.Valid)
    (hg : g.TypesIn p.state.types) (hsame : Transfer.SameFixed g p.state p'.state)
    (hsize : p'.state.values.size = p.state.values.size)
    (hlt : ∀ v ∈ todo, v < p.state.values.size)
    (hu : (todo.foldl (seedValue g) p).state.types.Extends p'.state.types)
    (hblocked : ∀ v, (todo.foldl (seedValue g) p).state.blocked v = true →
      p'.state.blocked v = true) :
    p'.state.Retypes (todo.foldl (seedValue g) p').state ∧
      ∀ w, w ∈ todo ∨ p'.state.temporary w = p.state.temporary w →
        (todo.foldl (seedValue g) p').state.temporary w =
          (todo.foldl (seedValue g) p).state.temporary w := by
  induction todo generalizing p p' with
  | nil =>
    refine ⟨.refl _, fun w hw => hw.resolve_left ?_⟩
    intro hmem
    cases hmem
  | cons v rest ih =>
    have hv := hlt v List.mem_cons_self
    obtain ⟨hlater, hvalid⟩ := seedValue_later hp hg v
    have hg' := hg.mono hlater.types.extends
    obtain ⟨hrest, -⟩ := seedValue_foldl_later rest hvalid hg'
    have hblocks (hb : (seedType g p.state v).blocks = true) : p'.state.blocked v = true := by
      apply hblocked
      apply hrest.blocked
      rw [state_seedValue, blocked_setTemporary, blocked_guessedState, if_pos ⟨hb, rfl, hv⟩]
    have hstate := state_seedValue_again hp hg hsame (hrest.types.extends.trans hu) hblocks
    have hretypes : p'.state.Retypes (seedValue g p' v).state := by
      rw [hstate]
      exact retypes_setTemporary ..
    obtain ⟨hlast, htemporary⟩ := ih _ _ hvalid hg'
      (hsame.of_retypes hlater hretypes)
      (by rw [hretypes.size, hsize, hlater.size])
      (fun w hw => by rw [hlater.size]; exact hlt w (List.mem_cons_of_mem v hw))
      (by rw [hretypes.types]; exact hu)
      (fun w hw => by rw [hretypes.blocked]; exact hblocked w hw)
    refine ⟨hretypes.trans hlast, fun w hw => htemporary w ?_⟩
    by_cases hlater : w ∈ rest
    · exact Or.inl hlater
    · refine Or.inr ?_
      rw [hstate, temporary_setTemporary, temporary_seedValue, hsize]
      by_cases hwv : w = v
      · rw [if_pos ⟨hwv, hv⟩, if_pos ⟨hwv, hv⟩]
      · rw [if_neg fun h => hwv h.1, if_neg fun h => hwv h.1]
        refine hw.resolve_left fun hmem => ?_
        exact (List.mem_cons.mp hmem).elim hwv hlater

/-- The first guesses count nothing. -/
theorem stats_seedAll (g : Graph) (p : Pass) : (seedAll g p).stats = p.stats := by
  rw [seedAll]
  generalize g.observables = todo
  induction todo generalizing p with
  | nil => rfl
  | cons v rest ih => rw [List.foldl_cons, ih, stats_seedValue]

/-- The first guesses leave the types of other values. -/
theorem temporary_seedValue_foldl {todo : List VarnodeId} {w : Nat} (hw : w ∉ todo) (p : Pass) :
    (todo.foldl (seedValue g) p).state.temporary w = p.state.temporary w := by
  induction todo generalizing p with
  | nil => rfl
  | cons v rest ih =>
    rw [List.mem_cons, not_or] at hw
    rw [List.foldl_cons, ih hw.2, temporary_seedValue, if_neg fun h => hw.1 h.1]

/-! ## Values that take no part -/

/-- Whether an action gives a type only to a value that takes part in type recovery. -/
def Action.OnObservable (g : Graph) : Action → Prop
  | .entered _ _ | .offered _ => True
  | .unified v _ | .aliased v _ => (g.varnode v).isObservable = true

/-- The values that a run writes take part in type recovery. -/
theorem Writes.observable (hg : g.WellFormed) {a : Action} {v t : Nat} {cause : Cause}
    (h : Writes g p q a v t cause) (ha : a.OnObservable g) :
    (g.varnode v).isObservable = true := by
  have hcauses := h.causes
  cases a with
  | entered root w => cases hcauses
  | offered r =>
    obtain ⟨hslot, hvalue⟩ := h.taker r rfl
    exact hg.observable_of_at? hslot hvalue
  | unified w u =>
    rw [hcauses.1]
    exact ha
  | aliased w u =>
    rw [hcauses.1]
    exact ha

/-- A run leaves the values alone that take no part in type recovery. -/
theorem Run.temporary_of_not_observable (hg : g.WellFormed) (h : Run g skip p as q)
    (hp : p.state.Valid) (has : ∀ a ∈ as, a.OnObservable g) {v : Nat}
    (hv : (g.varnode v).isObservable ≠ true) : q.state.temporary v = p.state.temporary v :=
  h.temporary_of_not_writes hp fun _ _ a ha _ _ hwrites => hv (hwrites.observable hg (has a ha))

/-- All actions of a round are on observable values. -/
theorem Phases.onObservable {pushed unified : Pass} {flows returns frames : List Action} {t : Nat}
    (hg : g.WellFormed) (h : Phases g skip p pushed unified q flows t returns frames)
    (hreturns : ∀ v ∈ returnedValues g, Varnode.annotation (g.varnode v) = false) :
    ∀ a ∈ flows ++ (returns ++ frames), a.OnObservable g := by
  refine h.forall_action (fun _ _ => trivial) (fun _ => trivial) (fun v hv => ?_)
    fun v u hv => hv.observable
  obtain ⟨o, -, hin⟩ := mem_inputs_of_mem_returnedValues hv
  obtain ⟨i, hi⟩ := List.mem_iff_getElem?.mp hin
  have hslot : (g.op o).at? (.input i) = some v := hi
  exact hg.observable_of_at? hslot (hreturns v hv)

end Recovery

namespace Routine

open Recovery TypeState

variable {r : Routine} {c : Config}

/-- What a round changes is not seen by the next: pointer steps and the base register keep their
committed types, no annotation is returned, and every union has a field that flows. -/
structure Repeatable (c : Config) (r : Routine) : Prop where
  /-- The values of pointer steps keep their committed types. -/
  stepped : ∀ o v, (r.graph.op o).opcode.isPointerStep = true → (r.graph.op o).Touches v →
    (r.runRound c).routine.state.committed v = r.recommended.committed v
  /-- The base register keeps its committed type. -/
  base : ∀ base, r.graph.spaceBase = some base →
    (r.runRound c).routine.state.committed base = r.recommended.committed base
  /-- No annotation is returned. -/
  returned : ∀ v ∈ returnedValues r.graph, Varnode.annotation (r.graph.varnode v) = false
  /-- Every union has a field of its own size. -/
  unions : r.state.types.UnionsCovered

/-- The next round starts from what the first came to. -/
theorem precedes_runRound (c : Config) :
    (r.pass c).state.Precedes (r.runRound c).routine.state := by
  obtain ⟨htypes, hchoices, -⟩ := commitAll_frame r.graph (r.pass c).state
  rw [state_runRound]
  refine ⟨by rw [htypes]; exact .refl _, fun o slot field hf => ?_⟩
  rw [choice?, hchoices]
  exact hf

namespace WellFormed

variable (hr : r.WellFormed) (hpos : 0 < r.graph.varnodes.size)

include hr hpos

/-- The recommendations were installed in the first round. -/
theorem recommended_runRound (c : Config) :
    (r.runRound c).routine.recommended = (r.runRound c).routine.state := by
  obtain ⟨hlocks, -, hlocked⟩ := hr.recommended_spec hpos
  obtain ⟨hlater, -⟩ := hr.pass_later hpos c
  obtain ⟨htypes, -, -, hframe⟩ := commitAll_frame r.graph (r.pass c).state
  have hnone : applyRecommendations r.graph (r.runRound c).routine.state =
      ((r.runRound c).routine.state, 0) := by
    apply applyRecommendations_eq_self
    intro x hx v hv
    have hsize : (r.pass c).state.types.size x.type = r.state.types.size x.type := by
      rw [← hlocks.types]
      exact hlater.types.extends.size (hlocks.types ▸ hr.mentioned.recommendations x hx)
    rw [state_runRound] at hv ⊢
    rw [htypes, hsize] at hv
    rw [(hframe v).2.1, hlater.locked]
    exact hlocked x hx v hv
  rw [recommended, graph_runRound, hnone]

/-- What was fixed before a round is fixed alike after it. -/
theorem sameFixed_runRound (h : r.Repeatable c) :
    Transfer.SameFixed r.graph r.recommended (r.runRound c).routine.state where
  locked v := hr.locked_runRound hpos c v
  fixed _ hv := hr.committed_runRound_of_locked hpos hv c
  stepped := h.stepped

/-- A pass leaves the values alone that take no part in type recovery. -/
theorem temporary_pass (h : r.Repeatable c) {v : Nat}
    (hv : (r.graph.varnode v).isObservable ≠ true) :
    (r.pass c).state.temporary v = r.recommended.temporary v := by
  obtain ⟨-, hvalid⟩ := hr.guessed_later hpos
  obtain ⟨pushed, unified, flows, t, returns, frames, hphases⟩ := hr.phases hpos c
  have hnot : v ∉ r.graph.observables := fun hmem => hv (hr.graph.mem_observables.mp hmem)
  calc (r.pass c).state.temporary v
    _ = r.guessed.state.temporary v :=
        hphases.run.temporary_of_not_observable hr.graph hvalid
          (hphases.onObservable hr.graph h.returned) hv
    _ = r.recommended.temporary v := temporary_seedValue_foldl hnot _

/-- The next round makes the guesses of the first. -/
theorem guessed_mirrors (h : r.Repeatable c) :
    Mirrors r.graph (r.runRound c).routine.state r.guessed
      (seedAll r.graph { state := (r.runRound c).routine.state }) := by
  obtain ⟨hlocks, hvalid, -⟩ := hr.recommended_spec hpos
  obtain ⟨hguessed, hguessedValid⟩ := hr.guessed_later hpos
  obtain ⟨pushed, unified, flows, t, returns, frames, hphases⟩ := hr.phases hpos c
  have hrun := hphases.run.later hguessedValid
  have hfinal := precedes_runRound (r := r) c
  obtain ⟨-, -, hsize, hframe⟩ := commitAll_frame r.graph (r.pass c).state
  have hsame := hr.sameFixed_runRound hpos h
  have htemporary (v : Nat) : (r.runRound c).routine.state.temporary v =
      (r.pass c).state.temporary v := by rw [state_runRound, (hframe v).1]
  have hblocked (v : Nat) : (r.runRound c).routine.state.blocked v = r.guessed.state.blocked v := by
    rw [state_runRound, (hframe v).2.2, hphases.run.blocked hguessedValid]
  have hvalues : (r.runRound c).routine.state.values.size = r.recommended.values.size := by
    rw [state_runRound, hsize, hrun.size, hguessed.size]
  have hlt : ∀ v ∈ r.graph.observables, v < r.recommended.values.size := fun v hv => by
    rw [hlocks.size, hr.sizes]
    exact Graph.WellFormed.lt_of_observable (hr.graph.mem_observables.mp hv)
  obtain ⟨hretypes, hagain⟩ := seedValue_foldl_again r.graph.observables
    { state := r.recommended } { state := (r.runRound c).routine.state } hvalid
    (hr.recommended_typesIn hpos) hsame hvalues hlt (hrun.types.extends.trans hfinal.types)
    fun v hv => (hblocked v).trans hv
  have hcovered : r.recommended.types.UnionsCovered := hlocks.types ▸ h.unions
  refine ⟨hguessedValid, hcovered.grows hvalid.types hguessed.types, hretypes.types,
    hretypes.choices, ?_, fun v => hagain v ?_, fun v => ?_, fun v => ?_, fun b hb => ?_, ?_⟩
  · exact (hretypes.size.trans hvalues).trans hguessed.size.symm
  · by_cases hv : v ∈ r.graph.observables
    · exact Or.inl hv
    · refine Or.inr ((htemporary v).trans (hr.temporary_pass hpos h ?_))
      exact fun hobs => hv (hr.graph.mem_observables.mpr hobs)
  · exact ((hretypes.locked v).trans (hsame.locked v)).trans (hguessed.locked v).symm
  · exact (hretypes.blocked v).trans (hblocked v)
  · exact ((hretypes.committed b).trans (h.base b hb)).trans (hguessed.committed b).symm
  · rw [stats_seedAll, guessed, stats_seedAll]

/-- The next round is a replay of the first. -/
theorem pass_mirrors (h : r.Repeatable c) :
    Mirrors r.graph (r.runRound c).routine.state (r.pass c) ((r.runRound c).routine.pass c) := by
  have hpass : (r.runRound c).routine.pass c =
      recover c r.graph (r.runRound c).routine.state := by
    rw [pass, graph_runRound, hr.recommended_runRound hpos c]
  rw [hpass]
  exact recover_mirrors hr.graph c (hr.guessed_mirrors hpos h) (precedes_runRound c)

/-- The pass of the next round ends where it started. -/
theorem state_pass_runRound (h : r.Repeatable c) :
    ((r.runRound c).routine.pass c).state = (r.runRound c).routine.state := by
  have hmirrors := hr.pass_mirrors hpos h
  obtain ⟨hlater, -⟩ := (hr.runRound c).pass_later (by rw [graph_runRound]; exact hpos) c
  obtain ⟨-, -, hsize, hframe⟩ := commitAll_frame r.graph (r.pass c).state
  refine ext_of_typing hmirrors.types hmirrors.choices ?_ fun v => ?_
  · rw [hmirrors.size, state_runRound, hsize]
  · have hcommitted := hlater.committed v
    rw [hr.recommended_runRound hpos c] at hcommitted
    have htemporary := hmirrors.temporary v
    have hlocked := hmirrors.locked v
    have hblocked := hmirrors.blocked v
    rw [← (hframe v).1, ← state_runRound] at htemporary
    rw [← (hframe v).2.1, ← state_runRound] at hlocked
    rw [← (hframe v).2.2, ← state_runRound] at hblocked
    exact Typing.ext hcommitted htemporary hlocked hblocked

/-- The commit of the next round finds nothing to do. -/
theorem commitAll_pass_runRound (h : r.Repeatable c) :
    commitAll (r.runRound c).routine.graph ((r.runRound c).routine.pass c).state =
      ((r.runRound c).routine.state, false) := by
  obtain ⟨hlater, -⟩ := hr.pass_later hpos c
  obtain ⟨hlocks, -⟩ := hr.recommended_spec hpos
  rw [hr.state_pass_runRound hpos h, graph_runRound, state_runRound]
  apply commitAll_commitAll
  intro v hv
  rw [hlater.size, hlocks.size, hr.sizes]
  exact Graph.WellFormed.lt_of_observable (hr.graph.mem_observables.mp hv)

/-- The next round changes nothing, and it counts what the first one counted. -/
theorem runRound_runRound (h : r.Repeatable c) :
    (r.runRound c).routine.runRound c =
      { outcome := .converged
        routine := { (r.runRound c).routine with
          progress := (r.runRound c).routine.progress.converge (r.pass c).stats }
        events := ((r.runRound c).routine.pass c).events } := by
  have hcommit := hr.commitAll_pass_runRound hpos h
  rw [← (hr.pass_mirrors hpos h).stats]
  generalize (r.runRound c).routine = r' at hcommit ⊢
  rw [runRound_of_commitAll hcommit]

end WellFormed

/-- A call that changes something runs a round, and leaves the function running. -/
theorem apply_of_changed {n : Nat} (h : (r.apply c).outcome = .changed n) :
    r.apply c = r.runRound c ∧ (r.apply c).routine.started = true ∧
      (r.apply c).routine.progress = .running n (r.pass c).stats := by
  rw [apply] at h ⊢
  split at h
  · cases h
  · rename_i hstarted
    split at h
    · cases h
    · rename_i hrunning
      split at h
      · cases h
      · rename_i hdue
        rw [if_neg hstarted, if_neg hrunning, if_neg hdue]
        refine ⟨rfl, ?_⟩
        rw [runRound] at h ⊢
        dsimp only at h ⊢
        split at h
        · rename_i hchanged
          cases h
          rw [if_pos hchanged]
          exact ⟨by simpa using hstarted, rfl⟩
        · cases h

/-- If no return has an annotation as an operand, no annotation is returned. -/
theorem annotation_of_returned
    (h : ∀ op ∈ r.graph.ops, op.opcode = .ret →
      ∀ v ∈ op.inputs, Varnode.annotation (r.graph.varnode v) = false)
    {v : Nat} (hv : v ∈ returnedValues r.graph) :
    Varnode.annotation (r.graph.varnode v) = false := by
  obtain ⟨o, hret, hin⟩ := mem_inputs_of_mem_returnedValues hv
  rcases r.graph.op_mem_or o with hmem | hnone
  · exact h _ hmem hret v hin
  · rw [hnone] at hret
    cases hret

/-- In a function without pointer steps whose base register is locked, no round sees what the round
before it changed. -/
theorem WellFormed.repeatable (hr : r.WellFormed) (hpos : 0 < r.graph.varnodes.size) (c : Config)
    (hsteps : ∀ op ∈ r.graph.ops, op.opcode ≠ .ptrAdd ∧ op.opcode ≠ .ptrSub)
    (hbase : ∀ base, r.graph.spaceBase = some base → r.state.locked base = true)
    (hreturns : ∀ op ∈ r.graph.ops, op.opcode = .ret →
      ∀ v ∈ op.inputs, Varnode.annotation (r.graph.varnode v) = false)
    (hunions : r.state.types.UnionsCovered) : r.Repeatable c where
  stepped o v hstep := by
    rcases r.graph.op_mem_or o with hmem | hnone
    · obtain ⟨hadd, hsub⟩ := hsteps _ hmem
      cases hop : (r.graph.op o).opcode with
      | ptrAdd => exact absurd hop hadd
      | ptrSub => exact absurd hop hsub
      | _ => rw [hop] at hstep; cases hstep
    · rw [hnone] at hstep
      cases hstep
  base base hsome :=
    hr.committed_runRound_of_locked hpos
      ((hr.recommended_spec hpos).1.locked base (hbase base hsome)) c
  returned v hv := annotation_of_returned hreturns hv
  unions := hunions

/-- At most one round ever changes anything in a function without pointer steps whose base register
is locked: the second call converges, leaves every type as it is and counts what the first one
counted, and calls after it do nothing. -/
theorem WellFormed.second_round_converges (hr : r.WellFormed)
    (hsteps : ∀ op ∈ r.graph.ops, op.opcode ≠ .ptrAdd ∧ op.opcode ≠ .ptrSub)
    (hbase : ∀ base, r.graph.spaceBase = some base → r.state.locked base = true)
    (hreturns : ∀ op ∈ r.graph.ops, op.opcode = .ret →
      ∀ v ∈ op.inputs, Varnode.annotation (r.graph.varnode v) = false)
    (hunions : r.state.types.UnionsCovered) (hrounds : 2 ≤ c.maxRounds.toNat)
    (hfirst : (r.apply c).outcome = .changed 1) :
    ((r.apply c).routine.apply c).outcome = .converged ∧
      ((r.apply c).routine.apply c).routine.state = (r.apply c).routine.state ∧
      ((r.apply c).routine.apply c).routine.progress.stats = (r.apply c).routine.progress.stats ∧
      ((r.apply c).routine.apply c).routine.apply c =
        ⟨.noOp, ((r.apply c).routine.apply c).routine, #[]⟩ := by
  obtain ⟨hround, hstarted, hprogress⟩ := apply_of_changed hfirst
  have hpos : 0 < r.graph.varnodes.size := by
    apply Nat.pos_of_ne_zero
    intro hempty
    have hcommit : commitAll r.graph (r.pass c).state = ((r.pass c).state, false) := by
      rw [commitAll, observables_of_empty hr.graph hempty]
      rfl
    rw [hround, runRound_of_commitAll hcommit] at hfirst
    cases hfirst
  have hagain := hr.runRound_runRound hpos (hr.repeatable hpos c hsteps hbase hreturns hunions)
  have hsecond : (r.apply c).routine.apply c = (r.apply c).routine.runRound c := by
    rw [Routine.apply, hstarted, hprogress]
    exact if_neg (Nat.not_le_of_lt hrounds)
  rw [hround] at hsecond hstarted hprogress ⊢
  rw [hsecond, hagain]
  refine ⟨rfl, rfl, by rw [hprogress]; rfl, ?_⟩
  rw [Routine.apply]
  simp only [hstarted]
  rfl

/-- A union flows through a copy and a comparison into a pointer to the frame, and from there onto
the frame and into the returned value. The first round adds types and chooses a field. -/
def framed : Routine :=
  let types := (TypeTable.empty 8).perform (.base 8 .int) |>.perform (.base 4 .int)
    |>.perform (.pointer 1 1) |>.perform (.union "u" 8 [⟨0, "n", 0⟩, ⟨0, "p", 2⟩])
    |>.perform (.spacebase 2 "stack") |>.perform (.pointer 4 1)
  let values := (Routine.empty "f" .simple 2 types).newInput 8 ⟨1, 0⟩ |>.newInput 8 ⟨1, 8⟩
    |>.newConstant 8 8 |>.newVarnode 8 ⟨1, 16⟩ |>.newVarnode 8 ⟨1, 24⟩ |>.newVarnode 1 ⟨1, 32⟩
    |>.newVarnode 4 ⟨2, 8⟩ |>.newVarnode 4 ⟨1, 40⟩
  (values.modifyState fun s => (s.lock 0 5).lock 1 3).modifyGraph fun g =>
    (g.setSpaceBase 0).linkOp
        { opcode := .copy, address := ⟨1, 0⟩, inputs := [1], output := some 3 }
      |>.linkOp { opcode := .intAdd, address := ⟨1, 1⟩, inputs := [0, 2], output := some 4 }
      |>.linkOp { opcode := .intEqual, address := ⟨1, 2⟩, inputs := [3, 4], output := some 5 }
      |>.linkOp { opcode := .copy, address := ⟨1, 3⟩, inputs := [6], output := some 7 }
      |>.linkOp { opcode := .ret, address := ⟨1, 4⟩, inputs := [2, 7], output := none }

/-- The second round of the function with a frame repeats the first one and changes nothing. -/
theorem framed_second_round :
    framed.WellFormed ∧ framed.state.types.UnionsCovered ∧
      (framed.apply {}).outcome = .changed 1 ∧
      ((framed.apply {}).routine.apply {}).outcome = .converged ∧
      ((framed.apply {}).routine.apply {}).routine.state = (framed.apply {}).routine.state ∧
      ((framed.apply {}).routine.apply {}).routine.progress.stats =
        (framed.apply {}).routine.progress.stats := by
  have hr : framed.WellFormed := by decide +kernel
  have hunions : framed.state.types.UnionsCovered := by decide +kernel
  have hfirst : (framed.apply {}).outcome = .changed 1 := by decide +kernel
  obtain ⟨hsecond, hstate, hstats, -⟩ := hr.second_round_converges (by decide +kernel)
    (by decide +kernel) (by decide +kernel) hunions (by decide) hfirst
  exact ⟨hr, hunions, hfirst, hsecond, hstate, hstats⟩

end Routine

end TypeRecovery
