import TypeRecovery.Proofs.Recovery.Fixpoint
import TypeRecovery.Proofs.Recovery.Frame

/-!
# Outcomes

The outcome of a call says whether the commit changed a type. Recommendations are installed before
the commit and are not counted, so a call that only installs recommended types reports convergence.
The outcomes of the calls for one function are changes numbered from one on, then the end of
recovery, by convergence or at the limit of rounds, and then nothing more, whatever is done to the
function between the calls.
-/

namespace TypeRecovery

namespace Recovery

open TypeState

variable {g : Graph} {s : TypeState}

/-- A commit reports a change exactly when it changes a committed type. -/
theorem commitAll_changed_iff (h : ∀ v ∈ g.observables, v < s.values.size) :
    (commitAll g s).2 = true ↔ ∃ v, (commitAll g s).1.committed v ≠ s.committed v := by
  constructor
  · intro hchanged
    by_contra hsame
    push Not at hsame
    have hnothing : commitAll g s = (s, false) := by
      apply commitAll_eq_self
      intro v hv
      have hv' := hsame v
      rw [committed_commitAll] at hv'
      rw [canCommit]
      cases hlocked : s.locked v with
      | true => exact Bool.and_false _
      | false =>
        rw [if_pos ⟨hv, h v hv, hlocked⟩] at hv'
        simp [hv']
    rw [hnothing] at hchanged
    cases hchanged
  · rintro ⟨v, hv⟩
    by_contra hsame
    rw [commitAll_of_unchanged (Bool.eq_false_iff.mpr hsame)] at hv
    exact hv rfl

end Recovery

namespace Routine

open Recovery TypeState

variable {r : Routine} {c : Config}

/-! ## What an outcome says about the committed types -/

/-- A call that runs no round leaves the types alone and reports neither a change nor
convergence. -/
theorem apply_eq_runRound_or (c : Config) (r : Routine) : r.apply c = r.runRound c ∨
    (r.apply c).routine.state = r.state ∧ (r.apply c).outcome ≠ .converged ∧
      (r.apply c).outcome.isChanged = false := by
  rcases r.apply_cases c with hround | ⟨-, hnot, hchanged, hstate⟩
  · exact Or.inl hround
  · exact Or.inr ⟨hstate, hnot, hchanged⟩

/-- A round reports a change exactly if something changed when it was committed. -/
theorem isChanged_runRound :
    (r.runRound c).outcome.isChanged = (commitAll r.graph (r.pass c).state).2 := by
  rw [runRound, pass, recommended]
  dsimp only
  split
  · rename_i h
    rw [h]
    rfl
  · rename_i h
    rw [Bool.eq_false_iff.mpr h]
    rfl

/-- What a round makes of a value: it is as the recommendations left it, or it is free and the
commit gave it another type. -/
theorem WellFormed.committed_runRound (hr : r.WellFormed) (hpos : 0 < r.graph.varnodes.size)
    (v : Nat) : (r.runRound c).routine.state.locked v = r.recommended.locked v ∧
      (r.recommended.locked v = true →
        (r.runRound c).routine.state.committed v = r.recommended.committed v) :=
  ⟨hr.locked_runRound hpos c v, fun hlocked => hr.committed_runRound_of_locked hpos hlocked c⟩

/-- A value that is not locked after the recommendations was left alone by them. -/
theorem committed_recommended {v : Nat} (h : r.recommended.locked v = false) :
    r.recommended.committed v = r.state.committed v := by
  rcases r.typing_recommended v with hsame | ⟨-, hlocked, -⟩
  · rw [committed, hsame]
    rfl
  · rw [h] at hlocked
    cases hlocked

/-- A round reports a change exactly when a value that is not locked has another committed type. -/
theorem WellFormed.isChanged_runRound_iff (hr : r.WellFormed) (hpos : 0 < r.graph.varnodes.size) :
    (r.runRound c).outcome.isChanged = true ↔
      ∃ v, (r.runRound c).routine.state.committed v ≠ r.state.committed v ∧
        (r.runRound c).routine.state.locked v = false := by
  obtain ⟨hlater, -⟩ := hr.pass_later hpos c
  have hexists : ∀ v ∈ r.graph.observables, v < (r.pass c).state.values.size := by
    intro v hv
    rw [hlater.size, (hr.recommended_spec hpos).1.size, hr.sizes]
    exact Graph.WellFormed.lt_of_observable (hr.graph.mem_observables.mp hv)
  have hcommit (v : Nat) : (r.runRound c).routine.state.committed v =
      (commitAll r.graph (r.pass c).state).1.committed v := by rw [state_runRound]
  rw [isChanged_runRound, commitAll_changed_iff hexists]
  apply exists_congr
  intro v
  obtain ⟨hlocked, hkept⟩ := hr.committed_runRound (c := c) hpos v
  rw [hlocked, ← hcommit, hlater.committed]
  constructor
  · intro hne
    cases hfree : r.recommended.locked v with
    | true => exact absurd (hkept hfree) hne
    | false => exact ⟨committed_recommended hfree ▸ hne, rfl⟩
  · rintro ⟨hne, hfree⟩
    rw [committed_recommended hfree]
    exact hne

/-- A committed type that differs after a round, of a value that is locked then, is the type that
was recommended for the value, which was free before. -/
theorem WellFormed.recommends_of_locked (hr : r.WellFormed) (hpos : 0 < r.graph.varnodes.size)
    {v : Nat} (hne : (r.runRound c).routine.state.committed v ≠ r.state.committed v)
    (hlocked : (r.runRound c).routine.state.locked v = true) :
    r.state.locked v = false ∧
      r.graph.Recommends r.state.types v ((r.runRound c).routine.state.committed v) := by
  obtain ⟨hlocked', hkept⟩ := hr.committed_runRound (c := c) hpos v
  rw [hlocked'] at hlocked
  rw [hkept hlocked] at hne ⊢
  rcases r.typing_recommended v with hsame | ⟨hfree, -, hfor⟩
  · exact absurd (congrArg Typing.committed hsame) hne
  · exact ⟨hfree, hfor⟩

/-- What the outcome of a call says about the committed types. It is a change exactly when a value
that is not locked has another committed type than before. Any other value whose committed type
differs is an input that the call itself locked, to the type recommended for it. So a call that
reports convergence has changed the types of such inputs at most. -/
theorem WellFormed.isChanged_apply_iff (hr : r.WellFormed) (c : Config) :
    ((r.apply c).outcome.isChanged = true ↔
      ∃ v, (r.apply c).routine.state.committed v ≠ r.state.committed v ∧
        (r.apply c).routine.state.locked v = false) ∧
    (∀ v, (r.apply c).routine.state.committed v ≠ r.state.committed v →
      (r.apply c).routine.state.locked v = true →
        r.state.locked v = false ∧
          r.graph.Recommends r.state.types v ((r.apply c).routine.state.committed v)) ∧
    ((r.apply c).outcome = .converged →
      ∀ v, (r.apply c).routine.state.committed v ≠ r.state.committed v →
        (r.apply c).routine.state.locked v = true) := by
  have hboth : ((r.apply c).outcome.isChanged = true ↔
      ∃ v, (r.apply c).routine.state.committed v ≠ r.state.committed v ∧
        (r.apply c).routine.state.locked v = false) ∧
      ∀ v, (r.apply c).routine.state.committed v ≠ r.state.committed v →
        (r.apply c).routine.state.locked v = true →
          r.state.locked v = false ∧
            r.graph.Recommends r.state.types v ((r.apply c).routine.state.committed v) := by
    rcases apply_eq_runRound_or c r with hround | ⟨hstate, -, hchanged⟩
    · rw [hround]
      by_cases hpos : 0 < r.graph.varnodes.size
      · exact ⟨hr.isChanged_runRound_iff hpos, fun v => hr.recommends_of_locked hpos⟩
      · -- without values there is nothing to commit
        have hempty := Nat.eq_zero_of_not_pos hpos
        have hnone := observables_of_empty hr.graph hempty
        rw [isChanged_runRound, commitAll, hnone, hr.state_runRound_of_empty hempty]
        simp
    · rw [hstate, hchanged]
      simp
  refine ⟨hboth.1, hboth.2, ?_⟩
  intro hconverged v hne
  by_contra hfree
  have hchanged := hboth.1.mpr ⟨v, hne, Bool.eq_false_iff.mpr hfree⟩
  rw [hconverged] at hchanged
  cases hchanged

/-- The first call installs the recommended type and reports convergence. -/
theorem suggested_isChanged_apply :
    suggested.WellFormed ∧ (suggested.apply {}).outcome = .converged ∧
      (suggested.apply {}).routine.state.committed 0 ≠ suggested.state.committed 0 ∧
      (suggested.apply {}).routine.state.locked 0 = true ∧
      suggested.graph.Recommends suggested.state.types 0
        ((suggested.apply {}).routine.state.committed 0) := by
  have hwf : suggested.WellFormed := by decide +kernel
  have hconverged : (suggested.apply {}).outcome = .converged := by decide +kernel
  have hne : (suggested.apply {}).routine.state.committed 0 ≠ suggested.state.committed 0 := by
    decide +kernel
  obtain ⟨-, hrecommended, hlocked⟩ := hwf.isChanged_apply_iff {}
  exact ⟨hwf, hconverged, hne, hlocked hconverged 0 hne,
    (hrecommended 0 hne (hlocked hconverged 0 hne)).2⟩

/-! ## Sequences of outcomes -/

/-- The ways in which a call goes on a function whose recovery has started. -/
inductive CallCase (c : Config) (r : Routine) : RoundResult → Prop where
  /-- Recovery has ended, and nothing happens. -/
  | finished (hfinished : r.progress.isFinished = true) : CallCase c r ⟨.noOp, r, #[]⟩
  /-- The limit is reached, and recovery ends with a warning. -/
  | capped (hlimit : c.maxRounds.toNat ≤ r.progress.rounds)
      (hdue : r.progress.isFinished = false) : CallCase c r ⟨.capped, r.cap, #[]⟩
  /-- A round changes something and is counted. -/
  | changed {result : RoundResult} (hlimit : r.progress.rounds < c.maxRounds.toNat)
      (hdue : r.progress.isFinished = false)
      (houtcome : result.outcome = .changed (r.progress.rounds + 1))
      (hrounds : result.routine.progress.rounds = r.progress.rounds + 1)
      (hphase : result.routine.progress.phase = .running)
      (hstarted : result.routine.started = r.started)
      (hwarnings : result.routine.warnings = r.warnings) : CallCase c r result
  /-- A round changes nothing, and recovery ends. -/
  | converged {result : RoundResult} (hlimit : r.progress.rounds < c.maxRounds.toNat)
      (hdue : r.progress.isFinished = false) (houtcome : result.outcome = .converged)
      (hphase : result.routine.progress.phase = .converged)
      (hstarted : result.routine.started = r.started)
      (hwarnings : result.routine.warnings = r.warnings) : CallCase c r result

/-- A call of a started function is one of the cases. -/
theorem callCase_apply (hstarted : r.started = true) (c : Config) : CallCase c r (r.apply c) := by
  rw [apply, hstarted]
  simp only [Bool.not_true, Bool.false_eq_true, if_false]
  split
  · rename_i hfinished
    exact .finished hfinished
  · rename_i hdue
    have hdue := Bool.eq_false_iff.mpr hdue
    split
    · rename_i hlimit
      exact .capped hlimit hdue
    · rename_i hlimit
      have hlimit := Nat.lt_of_not_le hlimit
      rw [runRound]
      dsimp only
      split
      · exact .changed hlimit hdue rfl rfl rfl rfl rfl
      · exact .converged hlimit hdue rfl rfl rfl rfl

/-- A change of a function that touches neither the state of its rounds nor whether recovery has
started. -/
structure Edit where
  /-- The function after the change. -/
  run : Routine → Routine
  /-- The state of the rounds stays. -/
  progress : ∀ r, (run r).progress = r.progress
  /-- Recovery has started exactly when it had. -/
  started : ∀ r, (run r).started = r.started

/-- A call and the function that it was made on. -/
structure Exchange where
  /-- The function before the call. -/
  before : Routine
  /-- The result of the call. -/
  result : RoundResult

namespace Exchange

/-- The outcome of the call. -/
def outcome (x : Exchange) : Outcome := x.result.outcome

/-- The warnings that the call added. -/
def warned (x : Exchange) : List String :=
  x.result.routine.warnings.drop x.before.warnings.length

end Exchange

/-- Calls that alternate with changes of the function. -/
def exchanges (c : Config) : Routine → List Edit → List Exchange
  | _, [] => []
  | r, e :: rest =>
    ⟨e.run r, (e.run r).apply c⟩ :: exchanges c ((e.run r).apply c).routine rest

/-- A property of all calls on functions whose recovery has started. -/
theorem exchanges_forall {P : Exchange → Prop} (c : Config)
    (hP : ∀ r : Routine, r.started = true → P ⟨r, r.apply c⟩) (hstarted : r.started = true)
    (edits : List Edit) : ∀ x ∈ exchanges c r edits, P x := by
  induction edits generalizing r with
  | nil => exact fun x hx => by cases hx
  | cons e rest ih =>
    have hedited : (e.run r).started = true := (e.started r).trans hstarted
    intro x hx
    rcases List.mem_cons.mp hx with rfl | hlater
    · exact hP _ hedited
    · refine ih ?_ x hlater
      have hcase := callCase_apply hedited c
      generalize (e.run r).apply c = result at hcase
      cases hcase with
      | finished => exact hedited
      | capped => exact hedited
      | changed _ _ _ _ _ hstays => exact hstays.trans hedited
      | converged _ _ _ _ hstays => exact hstays.trans hedited

/-- Once recovery has ended, calls do nothing. -/
theorem outcomes_of_finished (hstarted : r.started = true)
    (hfinished : r.progress.isFinished = true) (c : Config) (edits : List Edit) :
    (exchanges c r edits).map Exchange.outcome = List.replicate edits.length .noOp := by
  induction edits generalizing r with
  | nil => rfl
  | cons e rest ih =>
    have hedited : (e.run r).started = true := (e.started r).trans hstarted
    have hended : (e.run r).progress.isFinished = true := by rw [e.progress]; exact hfinished
    have hcase := callCase_apply hedited c
    rw [exchanges, List.map_cons, List.length_cons, List.replicate_succ, Exchange.outcome]
    generalize (e.run r).apply c = result at hcase
    cases hcase with
    | finished => rw [ih hedited hended]
    | capped _ hdue => rw [hended] at hdue; cases hdue
    | changed _ hdue => rw [hended] at hdue; cases hdue
    | converged _ hdue => rw [hended] at hdue; cases hdue

/-- The outcomes from a function whose recovery goes on after `rounds` rounds: `more` changes, the
end of recovery, and nothing any more. -/
def expectedOutcomes (c : Config) (rounds more idle : Nat) : List Outcome :=
  (List.range' (rounds + 1) more).map .changed ++
    (if rounds + more = c.maxRounds.toNat then .capped else .converged) ::
      List.replicate idle .noOp

/-- The outcomes of a function that is due start as expected, for some number of further rounds that
the limit allows. -/
theorem outcomes_of_due (hstarted : r.started = true) (hdue : r.progress.isFinished = false)
    {c : Config} (hrounds : r.progress.rounds ≤ c.maxRounds.toNat) (edits : List Edit) {idle : Nat}
    (hidle : edits.length ≤ idle) :
    ∃ more, r.progress.rounds + more ≤ c.maxRounds.toNat ∧
      (exchanges c r edits).map Exchange.outcome <+:
        expectedOutcomes c r.progress.rounds more idle := by
  induction edits generalizing r with
  | nil => exact ⟨0, hrounds, List.nil_prefix⟩
  | cons e rest ih =>
    have hedited : (e.run r).started = true := (e.started r).trans hstarted
    have hcase := callCase_apply hedited c
    have hrest : rest.length ≤ idle := Nat.le_of_succ_le hidle
    -- a call that ends recovery is followed by calls that do nothing
    have hended (r' : Routine) (hstarted' : r'.started = true)
        (hfinished : r'.progress.isFinished = true) :
        (exchanges c r' rest).map Exchange.outcome <+: List.replicate idle .noOp := by
      rw [outcomes_of_finished hstarted' hfinished]
      exact List.prefix_replicate_iff.mpr ⟨by simpa using hrest, by simp⟩
    rw [exchanges, List.map_cons, Exchange.outcome]
    generalize (e.run r).apply c = result at hcase
    cases hcase with
    | finished hfinished =>
      rw [e.progress, hdue] at hfinished
      cases hfinished
    | capped hlimit =>
      rw [e.progress] at hlimit
      have hrounds : r.progress.rounds = c.maxRounds.toNat := Nat.le_antisymm hrounds hlimit
      refine ⟨0, by omega, ?_⟩
      simp only [expectedOutcomes, List.range'_zero, List.map_nil, List.nil_append, Nat.add_zero,
        if_pos hrounds, List.prefix_cons_inj]
      exact hended _ hedited rfl
    | changed hlimit _ houtcome hnext hphase hstays =>
      rw [e.progress] at hlimit houtcome hnext
      have hgoes : result.routine.progress.isFinished = false := by
        rw [Progress.isFinished, hphase]
        rfl
      obtain ⟨more, hmore, hlater⟩ :=
        ih (hstays.trans hedited) hgoes (by rw [hnext]; exact hlimit) hrest
      rw [hnext] at hmore hlater
      refine ⟨more + 1, by omega, ?_⟩
      rw [houtcome, expectedOutcomes, List.range'_succ, List.map_cons, List.cons_append,
        List.prefix_cons_inj, Nat.add_left_comm, Nat.add_comm more]
      rw [expectedOutcomes] at hlater
      exact hlater
    | converged hlimit _ houtcome hphase hstays =>
      rw [e.progress] at hlimit
      refine ⟨0, by omega, ?_⟩
      simp only [expectedOutcomes, List.range'_zero, List.map_nil, List.nil_append, Nat.add_zero,
        if_neg (Nat.ne_of_lt hlimit), houtcome, List.prefix_cons_inj]
      exact hended _ (hstays.trans hedited) (by rw [Progress.isFinished, hphase]; rfl)

/-- A call adds a warning exactly when it gives up. -/
theorem warnings_apply (hstarted : r.started = true) (c : Config) :
    (r.apply c).routine.warnings =
      r.warnings ++ if (r.apply c).outcome = .capped then [notSettling] else [] := by
  have hcase := callCase_apply hstarted c
  generalize r.apply c = result at hcase
  cases hcase with
  | finished => simp
  | capped => rfl
  | changed _ _ houtcome _ _ _ hwarnings => rw [hwarnings, houtcome]; simp
  | converged _ _ houtcome _ _ hwarnings => rw [hwarnings, houtcome]; simp

/-- Calls that give up or find recovery ended leave the types alone. -/
theorem state_of_ended (hstarted : r.started = true)
    (h : (r.apply c).outcome = .capped ∨ (r.apply c).outcome = .noOp) :
    (r.apply c).routine.state = r.state := by
  have hcase := callCase_apply hstarted c
  generalize r.apply c = result at hcase h
  cases hcase with
  | finished => rfl
  | capped => rfl
  | changed _ _ houtcome => rw [houtcome] at h; simp at h
  | converged _ _ houtcome => rw [houtcome] at h; simp at h

/-- The cap is reported at most once. -/
theorem count_capped_expectedOutcomes (c : Config) (rounds more idle : Nat) :
    (expectedOutcomes c rounds more idle).count .capped ≤ 1 := by
  have hchanges : ((List.range' (rounds + 1) more).map Outcome.changed).count .capped = 0 := by
    simp [List.count_eq_zero]
  have hnothing : (List.replicate idle Outcome.noOp).count .capped = 0 := by
    simp [List.count_eq_zero]
  rw [expectedOutcomes, List.count_append, hchanges, List.count_cons, hnothing]
  split <;> simp

/-- A list of outcomes in which recovery gives up at most once gives one warning or none. -/
theorem flatMap_notSettling {l : List Outcome} (h : l.count .capped ≤ 1) :
    (l.flatMap fun o => if o = .capped then [notSettling] else []) =
      if .capped ∈ l then [notSettling] else [] := by
  induction l with
  | nil => rfl
  | cons o rest ih =>
    rw [List.flatMap_cons]
    by_cases ho : o = .capped
    · rw [ho, List.count_cons_self] at h
      have hnone : Outcome.capped ∉ rest := List.count_eq_zero.mp (by omega)
      rw [ih (by omega), if_neg hnone]
      simp [ho]
    · rw [List.count_cons_of_ne ho] at h
      rw [ih h]
      simp [ho, Ne.symm ho]

/-! ## Settling -/

/-- A call that changes something is below the limit and is counted, and recovery goes on. -/
theorem rounds_of_isChanged (h : (r.apply c).outcome.isChanged = true) :
    r.progress.rounds < c.maxRounds.toNat ∧
      (r.apply c).routine.progress.rounds = r.progress.rounds + 1 ∧
      (r.apply c).routine.progress.isFinished = false := by
  cases hstarted : r.started with
  | false =>
    rw [apply, hstarted] at h
    cases h
  | true =>
    have hcase := callCase_apply hstarted c
    generalize r.apply c = result at hcase h
    cases hcase with
    | finished => cases h
    | capped => cases h
    | changed hlimit _ _ hrounds hphase =>
      refine ⟨hlimit, hrounds, ?_⟩
      rw [Progress.isFinished, hphase]
      rfl
    | converged _ _ houtcome =>
      rw [houtcome] at h
      cases h

/-- There are no more outcomes than calls. -/
theorem length_settleWithin (c : Config) (calls : Nat) (r : Routine) :
    (r.settleWithin c calls).length ≤ calls := by
  induction calls generalizing r with
  | zero => exact Nat.le_refl 0
  | succ calls ih =>
    rw [settleWithin]
    split
    · exact Nat.succ_le_succ (ih _)
    · exact Nat.le_add_left 1 calls

/-- Enough calls settle a function: the last one changes nothing, and no further one is made. -/
theorem settleWithin_of_le {calls : Nat} (h : c.maxRounds.toNat ≤ r.progress.rounds + calls) :
    (∀ more, r.settleWithin c (calls + 1 + more) = r.settleWithin c (calls + 1)) ∧
      ∀ result ∈ (r.settleWithin c (calls + 1)).getLast?, result.outcome.isChanged = false := by
  induction calls generalizing r with
  | zero =>
    have hlast : (r.apply c).outcome.isChanged = false := by
      by_contra hchanged
      have hrounds := (rounds_of_isChanged (Bool.eq_true_of_not_eq_false hchanged)).1
      omega
    have hone (calls : Nat) : r.settleWithin c (calls + 1) = [r.apply c] := by
      simp [settleWithin, hlast]
    rw [hone 0]
    refine ⟨fun more => by rw [Nat.add_comm (0 + 1)]; exact hone more, ?_⟩
    rintro result ⟨⟩
    exact hlast
  | succ calls ih =>
    cases hchanged : (r.apply c).outcome.isChanged with
    | false =>
      have hone (calls : Nat) : r.settleWithin c (calls + 1) = [r.apply c] := by
        simp [settleWithin, hchanged]
      rw [hone]
      refine ⟨fun more => by rw [Nat.add_right_comm _ 1]; exact hone _, ?_⟩
      rintro result ⟨⟩
      exact hchanged
    | true =>
      have hnext (calls : Nat) : r.settleWithin c (calls + 1) =
          r.apply c :: (r.apply c).routine.settleWithin c calls := by
        simp [settleWithin, hchanged]
      obtain ⟨hlimit, hrounds, -⟩ := rounds_of_isChanged hchanged
      obtain ⟨hmore, hlast⟩ := ih (r := (r.apply c).routine) (by rw [hrounds]; omega)
      rw [hnext]
      refine ⟨fun more => by rw [Nat.add_right_comm _ 1, hnext, hmore], ?_⟩
      intro result hresult
      apply hlast
      rw [List.getLast?_cons] at hresult
      cases hrest : ((r.apply c).routine.settleWithin c (calls + 1)).getLast? with
      | some last => rw [hrest] at hresult; exact hresult
      | none =>
        rw [List.getLast?_eq_none_iff, settleWithin] at hrest
        split at hrest <;> cases hrest

/-- The rounds of a function are bounded. Whatever is done to a fresh function between the calls,
the outcomes are changes numbered from one on, at most as many as the limit says, then one outcome
that ends recovery, which is the limit exactly when all rounds were used, and then nothing more. A
warning is added once if the limit is hit and never otherwise, and the calls that hit it or find
recovery ended leave all types alone. Hence settling a function, fresh or not, takes at most one
call more than the limit. -/
theorem outcomes_bounded (hstarted : r.started = true) (hidle : r.progress.phase = .idle)
    (c : Config) (edits : List Edit) :
    (∃ k ≤ c.maxRounds.toNat, (exchanges c r edits).map Exchange.outcome <+:
      (List.range' 1 k).map .changed ++
        (if k = c.maxRounds.toNat then .capped else .converged) ::
          List.replicate edits.length .noOp) ∧
    (∀ x ∈ exchanges c r edits, x.before.warnings <+: x.result.routine.warnings) ∧
    (exchanges c r edits).flatMap Exchange.warned =
      (if .capped ∈ (exchanges c r edits).map Exchange.outcome then [notSettling] else []) ∧
    (∀ x ∈ exchanges c r edits, x.outcome = .capped ∨ x.outcome = .noOp →
      x.result.routine.state = x.before.state) ∧
    ∀ r' : Routine, (r'.settle c).length ≤ c.maxRounds.toNat + 1 ∧
      (∀ result ∈ (r'.settle c).getLast?, result.outcome.isChanged = false) ∧
      ∀ calls, c.maxRounds.toNat + 1 ≤ calls → r'.settleWithin c calls = r'.settle c := by
  have hdue : r.progress.isFinished = false := by
    rw [Progress.isFinished, hidle]
    rfl
  have hrounds := r.progress.fresh hidle
  obtain ⟨k, hk, houtcomes⟩ := outcomes_of_due hstarted hdue
    (hrounds ▸ Nat.zero_le c.maxRounds.toNat) edits (Nat.le_refl edits.length)
  rw [hrounds] at hk houtcomes
  have hwarnings := exchanges_forall
    (P := fun x => x.result.routine.warnings =
      x.before.warnings ++ if x.outcome = .capped then [notSettling] else []) c
    (fun r' hr' => warnings_apply hr' c) hstarted edits
  have hwarned : (exchanges c r edits).flatMap Exchange.warned =
      ((exchanges c r edits).map Exchange.outcome).flatMap fun o =>
        if o = .capped then [notSettling] else [] := by
    rw [List.flatMap_map]
    apply List.flatMap_congr
    intro x hx
    rw [Exchange.warned, hwarnings x hx, List.drop_left]
  refine ⟨⟨k, by omega, ?_⟩, fun x hx => ?_, ?_, ?_, fun r' => ⟨?_, ?_, ?_⟩⟩
  · rw [expectedOutcomes, Nat.zero_add, Nat.zero_add] at houtcomes
    exact houtcomes
  · rw [hwarnings x hx]
    exact List.prefix_append _ _
  · rw [hwarned]
    exact flatMap_notSettling (Nat.le_trans (houtcomes.sublist.count_le .capped)
      (count_capped_expectedOutcomes c 0 k edits.length))
  · exact exchanges_forall (P := fun x => x.outcome = .capped ∨ x.outcome = .noOp →
      x.result.routine.state = x.before.state) c (fun r' hr' => state_of_ended hr') hstarted edits
  · exact length_settleWithin c _ r'
  · exact (settleWithin_of_le (Nat.le_add_left _ _)).2
  · intro calls hcalls
    obtain ⟨more, rfl⟩ := Nat.exists_eq_add_of_le hcalls
    exact (settleWithin_of_le (Nat.le_add_left _ _)).1 more

/-- A change that attaches a warning. -/
def Edit.note (text : String) : Edit where
  run r := r.warn text
  progress _ := rfl
  started _ := rfl

/-- With a limit of one round, the second call gives up, and its warning follows the one that was
attached in between. -/
theorem followed_outcomes_bounded :
    (exchanges { maxRounds := 1 } followed [.note "a", .note "b", .note "c"]).map
        Exchange.outcome = [.changed 1, .capped, .noOp] ∧
      (exchanges { maxRounds := 1 } followed [.note "a", .note "b", .note "c"]).flatMap
        Exchange.warned = [notSettling] ∧
      (followed.settle { maxRounds := 1 }).length ≤ 2 := by
  have houtcomes : (exchanges { maxRounds := 1 } followed [.note "a", .note "b", .note "c"]).map
      Exchange.outcome = [.changed 1, .capped, .noOp] := by decide +kernel
  obtain ⟨-, -, hwarned, -, hsettle⟩ := outcomes_bounded (r := followed) rfl rfl
    { maxRounds := 1 } [.note "a", .note "b", .note "c"]
  rw [houtcomes] at hwarned
  exact ⟨houtcomes, hwarned, (hsettle followed).1⟩

end Routine

end TypeRecovery
