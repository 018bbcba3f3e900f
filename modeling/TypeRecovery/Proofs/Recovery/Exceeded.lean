import Mathlib.Data.List.Induction
import TypeRecovery.Proofs.Description.Assembly
import TypeRecovery.Proofs.Recovery.Frame

/-!
# The mark of functions that were given up

A call that finds the limit of rounds reached gives the function up: it marks the function and
leaves it in a phase of its own. A reset forgets the phase but not the mark. So the mark says that
some call gave up, the phase that one did since the last reset, and the two agree after a sequence
of calls unless all the calls that gave up were made before the last reset.
-/

namespace TypeRecovery

namespace Routine

variable {r : Routine} {sequence : List Call} {a : Call}

/-! ## One call -/

/-- A call with a configuration finds the limit of rounds reached. -/
def GivesUp (r : Routine) (c : Config) : Prop := (r.apply c).outcome = .capped

instance (r : Routine) (c : Config) : Decidable (r.GivesUp c) :=
  inferInstanceAs (Decidable (_ = _))

/-- The two ways in which a call for a round treats the mark and the phase of a function that was
given up. -/
inductive MarkCase (r : Routine) (c : Config) : Prop where
  /-- The call gives up and leaves both. -/
  | given (houtcome : r.GivesUp c) (hmark : (r.apply c).routine.exceeded = true)
      (hphase : (r.apply c).routine.progress.phase = .capped)
  /-- The call does not give up, and it brings neither about nor takes it away. -/
  | kept (houtcome : ¬r.GivesUp c) (hmark : (r.apply c).routine.exceeded = r.exceeded)
      (hphase : (r.apply c).routine.progress.phase = .capped ↔ r.progress.phase = .capped)

/-- A call gives up, or it leaves the mark and the phase of giving up as they were. -/
theorem markCase (r : Routine) (c : Config) : MarkCase r c := by
  by_cases hstarted : r.started = true
  · by_cases hfinished : r.progress.isFinished = true
    · have happly : r.apply c = ⟨.noOp, r, #[]⟩ := by simp [apply, hstarted, hfinished]
      exact .kept (by simp [GivesUp, happly]) (by rw [happly]) (by rw [happly])
    · by_cases hlimit : c.maxRounds.toNat ≤ r.progress.rounds
      · have happly : r.apply c = ⟨.capped, r.cap, #[]⟩ := by
          simp [apply, hstarted, hfinished, hlimit]
        exact .given (by simp [GivesUp, happly]) (by rw [happly]; rfl) (by rw [happly]; rfl)
      · have happly : r.apply c = r.runRound c := by
          simp [apply, hstarted, hfinished, hlimit]
        -- a round is run only for a function that was not given up
        have hdue : r.progress.phase ≠ .capped := by
          intro hcapped
          simp [Progress.isFinished, hcapped] at hfinished
        rcases hround : Recovery.commitAll r.graph
          (Recovery.recover c r.graph (Recovery.applyRecommendations r.graph r.state).1).state
          with ⟨state, changed⟩
        cases changed <;>
          exact .kept (by simp [GivesUp, happly, runRound, hround])
            (by simp [happly, runRound, hround])
            (by simp [happly, runRound, hround, hdue, Progress.running, Progress.converge])
  · have happly : r.apply c = ⟨.notStarted, r, #[]⟩ := by simp [apply, hstarted]
    exact .kept (by simp [GivesUp, happly]) (by rw [happly]) (by rw [happly])

/-- A call marks a function exactly when it gives up, and nothing takes the mark away. -/
theorem exceeded_call (r : Routine) (a : Call) : (r.call a).exceeded = true ↔
    (∃ c, a = .apply c ∧ r.GivesUp c) ∨ r.exceeded = true := by
  cases a with
  | reset => simp [call, reset]
  | apply c =>
    cases r.markCase c with
    | given houtcome hmark hphase => simp [call, hmark, houtcome]
    | kept houtcome hmark hphase => simp [call, hmark, houtcome]

/-- A call leaves the phase of a function that was given up when it gives up itself. Only a reset
takes the phase away. -/
theorem capped_call (r : Routine) (a : Call) : (r.call a).progress.phase = .capped ↔
    (∃ c, a = .apply c ∧ r.GivesUp c) ∨ a ≠ .reset ∧ r.progress.phase = .capped := by
  cases a with
  | reset => simp [call, reset, Progress.start]
  | apply c =>
    cases r.markCase c with
    | given houtcome hmark hphase => simp [call, hphase, houtcome]
    | kept houtcome hmark hphase => simp [call, hphase, houtcome]

/-! ## Sequences of calls -/

/-- Some call of a sequence gave up. -/
def GaveUp (r : Routine) (sequence : List Call) : Prop :=
  ∃ earlier c later, sequence = earlier ++ .apply c :: later ∧ (r.calls earlier).GivesUp c

/-- Some call of a sequence gave up, and there was no reset afterwards. -/
def GaveUpSinceReset (r : Routine) (sequence : List Call) : Prop :=
  ∃ earlier c later, sequence = earlier ++ .apply c :: later ∧ (r.calls earlier).GivesUp c ∧
    .reset ∉ later

/-- What gave up since a reset gave up. -/
theorem GaveUpSinceReset.gaveUp (h : r.GaveUpSinceReset sequence) : r.GaveUp sequence := by
  obtain ⟨earlier, c, later, hsequence, hgives, -⟩ := h
  exact ⟨earlier, c, later, hsequence, hgives⟩

/-- A call of a longer sequence is its last call or one of those before. -/
theorem append_singleton_eq_iff {earlier later : List Call} {b : Call} :
    sequence ++ [a] = earlier ++ b :: later ↔
      sequence = earlier ∧ a = b ∧ later = [] ∨
        ∃ before, later = before ++ [a] ∧ sequence = earlier ++ b :: before := by
  constructor
  · intro h
    rcases List.eq_nil_or_concat' later with rfl | ⟨before, last, rfl⟩
    · obtain ⟨rfl, hlast⟩ := List.append_inj' h rfl
      exact Or.inl ⟨rfl, List.head_eq_of_cons_eq hlast, rfl⟩
    · rw [← List.cons_append, ← List.append_assoc] at h
      obtain ⟨rfl, hlast⟩ := List.append_inj' h rfl
      exact Or.inr ⟨before, by rw [hlast], rfl⟩
  · rintro (⟨rfl, rfl, rfl⟩ | ⟨before, rfl, rfl⟩)
    · rfl
    · simp

/-- A sequence gave up in its last call or before it. -/
theorem gaveUp_append_singleton : r.GaveUp (sequence ++ [a]) ↔
    (∃ c, a = .apply c ∧ (r.calls sequence).GivesUp c) ∨ r.GaveUp sequence := by
  simp only [GaveUp, append_singleton_eq_iff]
  constructor
  · rintro ⟨earlier, c, later, ⟨rfl, rfl, rfl⟩ | ⟨before, rfl, rfl⟩, hgives⟩
    · exact Or.inl ⟨c, rfl, hgives⟩
    · exact Or.inr ⟨earlier, c, before, rfl, hgives⟩
  · rintro (⟨c, rfl, hgives⟩ | ⟨earlier, c, before, rfl, hgives⟩)
    · exact ⟨sequence, c, [], Or.inl ⟨rfl, rfl, rfl⟩, hgives⟩
    · exact ⟨earlier, c, before ++ [a], Or.inr ⟨before, rfl, rfl⟩, hgives⟩

/-- A sequence gave up since a reset in its last call, or before it if that is no reset. -/
theorem gaveUpSinceReset_append_singleton : r.GaveUpSinceReset (sequence ++ [a]) ↔
    (∃ c, a = .apply c ∧ (r.calls sequence).GivesUp c) ∨
      a ≠ .reset ∧ r.GaveUpSinceReset sequence := by
  simp only [GaveUpSinceReset, append_singleton_eq_iff]
  constructor
  · rintro ⟨earlier, c, later, ⟨rfl, rfl, rfl⟩ | ⟨before, rfl, rfl⟩, hgives, hreset⟩
    · exact Or.inl ⟨c, rfl, hgives⟩
    · rw [List.mem_append, List.mem_singleton, not_or] at hreset
      exact Or.inr ⟨Ne.symm hreset.2, earlier, c, before, rfl, hgives, hreset.1⟩
  · rintro (⟨c, rfl, hgives⟩ | ⟨ha, earlier, c, before, rfl, hgives, hreset⟩)
    · exact ⟨sequence, c, [], Or.inl ⟨rfl, rfl, rfl⟩, hgives, List.not_mem_nil⟩
    · refine ⟨earlier, c, before ++ [a], Or.inr ⟨before, rfl, rfl⟩, hgives, ?_⟩
      rw [List.mem_append, List.mem_singleton, not_or]
      exact ⟨hreset, ha.symm⟩

/-- The last call is made of what the others leave. -/
theorem calls_append_singleton (r : Routine) (sequence : List Call) (a : Call) :
    r.calls (sequence ++ [a]) = (r.calls sequence).call a := r.calls_append sequence [a]

/-- A function that was not marked is marked exactly when a call gave up. -/
theorem exceeded_calls (hr : r.exceeded = false) (sequence : List Call) :
    (r.calls sequence).exceeded = true ↔ r.GaveUp sequence := by
  induction sequence using List.reverseRecOn with
  | nil =>
    refine ⟨fun h => absurd (hr.symm.trans h) Bool.noConfusion, ?_⟩
    rintro ⟨earlier, c, later, h, -⟩
    exact absurd h.symm (List.append_ne_nil_of_right_ne_nil _ (List.cons_ne_nil _ _))
  | append_singleton before a ih =>
    rw [calls_append_singleton, exceeded_call, gaveUp_append_singleton, ih]

/-- A function that no call gave up is in the phase of those that were exactly when a call gave up
since the last reset. -/
theorem capped_calls (hr : r.progress.phase ≠ .capped) (sequence : List Call) :
    (r.calls sequence).progress.phase = .capped ↔ r.GaveUpSinceReset sequence := by
  induction sequence using List.reverseRecOn with
  | nil =>
    refine ⟨fun h => absurd h hr, ?_⟩
    rintro ⟨earlier, c, later, h, -⟩
    exact absurd h.symm (List.append_ne_nil_of_right_ne_nil _ (List.cons_ne_nil _ _))
  | append_singleton before a ih =>
    rw [calls_append_singleton, capped_call, gaveUpSinceReset_append_singleton, ih]

/-- After any sequence of rounds and resets on a new function, whatever the configurations, the
function is marked exactly when some call gave up, and in the phase of functions that were given up
exactly when some call gave up since the last reset. The mark and the phase agree exactly when a
call gave up since the last reset or none ever did. -/
theorem IsNew.exceeded_iff_capped (hr : r.IsNew) (sequence : List Call) :
    ((r.calls sequence).exceeded = true ↔ r.GaveUp sequence) ∧
    ((r.calls sequence).progress.phase = .capped ↔ r.GaveUpSinceReset sequence) ∧
    (((r.calls sequence).exceeded = true ↔ (r.calls sequence).progress.phase = .capped) ↔
      (r.GaveUp sequence → r.GaveUpSinceReset sequence)) := by
  obtain ⟨name, spaces, stack, types, hassembles⟩ := hr
  obtain ⟨hprogress, hmark⟩ := hassembles.progress
  have hexceeded := exceeded_calls hmark sequence
  have hcapped : (r.calls sequence).progress.phase = .capped ↔ r.GaveUpSinceReset sequence :=
    capped_calls (by rw [hprogress]; exact Phase.noConfusion) sequence
  refine ⟨hexceeded, hcapped, ?_⟩
  rw [hexceeded, hcapped]
  exact ⟨Iff.mp, fun h => ⟨h, GaveUpSinceReset.gaveUp⟩⟩

/-- The loop that is doubled is given up at once when no round is allowed. A reset afterwards leaves
the mark and forgets the phase. -/
theorem doubling_exceeded_not_capped : ∃ n, doubling.build = .ok n ∧
    n.routine.GaveUp [.apply { maxRounds := 0 }, .reset] ∧
    ¬((n.routine.calls [.apply { maxRounds := 0 }, .reset]).exceeded = true ↔
      (n.routine.calls [.apply { maxRounds := 0 }, .reset]).progress.phase = .capped) := by
  have hany : (doubling.build.toOption.any fun n =>
      n.routine.GivesUp { maxRounds := 0 }) = true := by
    decide +kernel
  cases hbuild : doubling.build with
  | error e =>
    rw [hbuild] at hany
    cases hany
  | ok n =>
    rw [hbuild] at hany
    have hgave : n.routine.GaveUp [.apply { maxRounds := 0 }, .reset] :=
      ⟨[], _, [.reset], rfl, of_decide_eq_true hany⟩
    obtain ⟨-, hcapped, hagree⟩ := (Description.isNew_build hbuild).exceeded_iff_capped
      [.apply { maxRounds := 0 }, .reset]
    refine ⟨n, rfl, hgave, fun hboth => ?_⟩
    exact Phase.noConfusion (hcapped.mpr (hagree.mp hboth hgave))

end Routine

end TypeRecovery
