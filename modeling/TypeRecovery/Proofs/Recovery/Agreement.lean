import TypeRecovery.Proofs.Recovery.Outcome
import TypeRecovery.Proofs.Report.Verify
import TypeRecovery.Proofs.Safety

/-!
# Agreement of temporary and committed types

Whenever recovery rests, the temporary type of an observable value is its committed type. A
description and a lock set both. A round first gives each locked value its committed type, which no
later action of the pass replaces, and the commit at its end covers all other observable values. So
recovery may stop anywhere: the verification of a function finds neither a temporary type that
differs nor a fixed type that was replaced.
-/

namespace TypeRecovery

namespace Recovery

open TypeState

variable {g : Graph} {skip : Bool} {s : TypeState} {p q : Pass} {v : Nat}

/-! ## Locked values during a round -/

/-- The first guess at the type of a locked value is the type to which it is locked. -/
theorem id_seedType_of_locked (h : s.locked v = true) : (seedType g s v).id = s.committed v := by
  have hpiece : symbolPiece? g s v = none := by
    simp only [symbolPiece?, h, not_true_eq_false, false_and, and_false, if_false]
    split
    · rfl
    · split <;> rfl
  rw [seedType, hpiece, Transfer.localType, if_pos h]

/-- A first guess leaves locks and committed types alone, and gives a locked value its committed
type. -/
theorem seedValue_of_locked (h : p.state.locked v = true) (w : Nat) :
    (seedValue g p w).state.locked v = true ∧
      (seedValue g p w).state.committed v = p.state.committed v ∧
      (v = w → v < p.state.values.size →
        (seedValue g p w).state.temporary v = p.state.committed v) := by
  refine ⟨?_, ?_, ?_⟩
  · rw [state_seedValue, locked_setTemporary, locked_guessedState, h]
  · rw [state_seedValue, committed_setTemporary, committed_guessedState]
  · rintro rfl hlt
    rw [temporary_seedValue, if_pos ⟨rfl, hlt⟩, id_seedType_of_locked h]

/-- A locked value has its committed type after first guesses that include it. -/
theorem seedValue_foldl_of_locked (todo : List VarnodeId) (h : p.state.locked v = true)
    (hlt : v < p.state.values.size)
    (hv : v ∈ todo ∨ p.state.temporary v = p.state.committed v) :
    (todo.foldl (seedValue g) p).state.temporary v = p.state.committed v := by
  induction todo generalizing p with
  | nil => exact hv.resolve_left List.not_mem_nil
  | cons w rest ih =>
    obtain ⟨hlocked, hcommitted, hguess⟩ := seedValue_of_locked (g := g) h w
    rw [List.foldl_cons, ← hcommitted]
    apply ih hlocked
    · rw [size_seedValue]
      exact hlt
    · -- the value is still to come, or it has the type and keeps it
      rw [hcommitted]
      by_cases hw : v = w
      · exact Or.inr (hguess hw hlt)
      · rcases hv with hmem | hsame
        · exact Or.inl ((List.mem_cons.mp hmem).resolve_left hw)
        · right
          rw [temporary_seedValue, if_neg fun hboth => hw hboth.1, hsame]

/-- A pass does not replace the types of locked values. -/
theorem Run.temporary_of_locked {as : List Action} (h : Run g skip p as q) (hp : p.state.Valid)
    (hv : p.state.locked v = true) : q.state.temporary v = p.state.temporary v := by
  refine h.temporary_of_not_writes hp fun m hm a _ t cause hwrites => ?_
  have hfree := hwrites.locked
  rw [hm.locked, hv] at hfree
  cases hfree

end Recovery

namespace Routine

open Recovery TypeState

variable {r : Routine} {c : Config}

/-! ## Agreement -/

/-- Every observable value has its committed type as its temporary type. -/
def Agrees (r : Routine) : Prop :=
  ∀ v, (r.graph.varnode v).isObservable = true → r.state.temporary v = r.state.committed v

/-- Agreement is about the graph and the types only. -/
theorem Agrees.congr {r' : Routine} (h : r.Agrees) (hgraph : r'.graph = r.graph)
    (hstate : r'.state = r.state) : r'.Agrees := by
  intro v hv
  rw [hgraph] at hv
  rw [hstate]
  exact h v hv

/-- The temporary and committed types of observable values agree after a round, whatever they were
before. -/
theorem WellFormed.agrees_runRound (hr : r.WellFormed) (c : Config) :
    (r.runRound c).routine.Agrees := by
  intro v hv
  rw [graph_runRound] at hv
  have hlt := Graph.WellFormed.lt_of_observable hv
  have hpos : 0 < r.graph.varnodes.size := Nat.zero_lt_of_lt hlt
  have hmem : v ∈ r.graph.observables := hr.graph.mem_observables.mpr hv
  have hsize : r.recommended.values.size = r.graph.varnodes.size := by
    rw [(hr.recommended_spec hpos).1.size, hr.sizes]
  obtain ⟨hlater, -⟩ := hr.pass_later hpos c
  rw [state_runRound, ((commitAll_frame r.graph (r.pass c).state).2.2.2 v).1, committed_commitAll,
    hlater.locked, hlater.size, hsize, hlater.committed]
  by_cases hlocked : r.recommended.locked v = true
  · -- the commit passes over the value, whose first guess was its committed type
    rw [if_neg (by simp [hlocked])]
    obtain ⟨hguessed, hvalid⟩ := hr.guessed_later hpos
    obtain ⟨pushed, unified, flows, t, returns, frames, hphases⟩ := hr.phases hpos c
    calc (r.pass c).state.temporary v
      _ = r.guessed.state.temporary v :=
          hphases.run.temporary_of_locked hvalid ((hguessed.locked v).trans hlocked)
      _ = r.recommended.committed v :=
          seedValue_foldl_of_locked (p := { state := r.recommended }) r.graph.observables hlocked
            (hsize ▸ hlt) (Or.inl hmem)
  · rw [if_pos ⟨hmem, hlt, Bool.eq_false_iff.mpr hlocked⟩]

/-- A call keeps the agreement. -/
theorem Agrees.call (h : r.Agrees) (hr : r.WellFormed) (a : Call) : (r.call a).Agrees := by
  cases a with
  | reset => exact h.congr rfl rfl
  | apply c =>
    rw [Routine.call]
    rcases r.apply_cases c with hround | ⟨-, -, -, hstate⟩
    · rw [hround]
      exact hr.agrees_runRound c
    · exact h.congr (graph_apply c r) hstate

/-- Calls keep the agreement. -/
theorem Agrees.calls (h : r.Agrees) (hr : r.WellFormed) (sequence : List Call) :
    (r.calls sequence).Agrees := by
  induction sequence generalizing r with
  | nil => exact h
  | cons a rest ih => exact ih (h.call hr a) (hr.call a)

/-! ## The calls that settle a function -/

/-- A call that changes nothing on a function whose recovery has not ended ends it, or finds that
recovery has not started. -/
theorem outcome_of_due (hdue : r.progress.isFinished = false)
    (h : (r.apply c).outcome.isChanged = false) :
    (r.apply c).outcome ∈ [.converged, .capped, .notStarted] := by
  cases hstarted : r.started with
  | false => simp [apply, hstarted]
  | true =>
    have hcase := callCase_apply hstarted c
    generalize r.apply c = result at hcase h ⊢
    cases hcase with
    | finished hfinished =>
      rw [hdue] at hfinished
      cases hfinished
    | capped => simp
    | changed _ _ houtcome =>
      rw [houtcome] at h
      cases h
    | converged _ _ houtcome => simp [houtcome]

/-- Settling a function whose recovery has not ended is a sequence of calls: all but the last change
something, and the last one ends recovery or finds that it has not started. -/
theorem settleWithin_eq_append {calls : Nat} (hdue : r.progress.isFinished = false)
    (h : c.maxRounds.toNat ≤ r.progress.rounds + calls) :
    ∃ earlier last, r.settleWithin c (calls + 1) = earlier ++ [last] ∧
      (∀ x ∈ earlier, x.outcome.isChanged = true) ∧
      last.outcome ∈ [.converged, .capped, .notStarted] ∧
      last.routine = r.calls (List.replicate (earlier.length + 1) (.apply c)) := by
  induction calls generalizing r with
  | zero =>
    have hlast : (r.apply c).outcome.isChanged = false := by
      by_contra hchanged
      have hrounds := (rounds_of_isChanged (Bool.eq_true_of_not_eq_false hchanged)).1
      omega
    refine ⟨[], r.apply c, ?_, by simp, outcome_of_due hdue hlast, rfl⟩
    simp [settleWithin, hlast]
  | succ calls ih =>
    cases hchanged : (r.apply c).outcome.isChanged with
    | false =>
      refine ⟨[], r.apply c, ?_, by simp, outcome_of_due hdue hchanged, rfl⟩
      simp [settleWithin, hchanged]
    | true =>
      obtain ⟨-, hrounds, hgoes⟩ := rounds_of_isChanged hchanged
      obtain ⟨earlier, last, hsettle, hearlier, houtcome, hroutine⟩ := ih hgoes (by omega)
      refine ⟨r.apply c :: earlier, last, ?_, ?_, houtcome, ?_⟩
      · rw [settleWithin, if_pos hchanged, hsettle]
        rfl
      · intro x hx
        rcases List.mem_cons.mp hx with rfl | hlater
        · exact hchanged
        · exact hearlier x hlater
      · rw [hroutine]
        rfl

end Routine

namespace Description

open Routine

/-- Wherever the calls for rounds on the function of an accepted description come to an end, by
convergence, at the limit of rounds or because recovery never started, the temporary type of every
observable value is its committed type, and every value that was locked at first is locked to the
same type. So a verification against the types that were fixed at first reports neither a temporary
type that differs nor a fixed type that changed. -/
theorem settle_verified {d : Description} {n : NamedRoutine} (h : d.build = .ok n) (c : Config) :
    ∃ earlier last, n.routine.settle c = earlier ++ [last] ∧
      (∀ x ∈ earlier, x.outcome.isChanged = true) ∧
      last.outcome ∈ [.converged, .capped, .notStarted] ∧
      (∀ v, (n.routine.graph.varnode v).isObservable = true →
        last.routine.state.temporary v = last.routine.state.committed v) ∧
      n.routine.state.types.Extends last.routine.state.types ∧
      (∀ v, n.routine.state.locked v = true →
        last.routine.state.locked v = true ∧
          last.routine.state.committed v = n.routine.state.committed v) ∧
      (∀ v, .temporaryDiffers v ∉ (last.routine.verify n.routine.lockedTypes).violations) ∧
      ∀ v before after,
        .lockedChanged v before after ∉ (last.routine.verify n.routine.lockedTypes).violations := by
  obtain ⟨names, hnamed⟩ := named_build h
  have hr := hnamed.wellFormed
  have hfresh : n.routine.progress.isFinished = false := by
    rw [hnamed.unstarted]
    rfl
  obtain ⟨earlier, last, hsettle, hearlier, houtcome, hlast⟩ :=
    settleWithin_eq_append (c := c) hfresh (Nat.le_add_left _ _)
  have hagrees : last.routine.Agrees := by
    rw [hlast]
    exact Agrees.calls (fun v _ => hnamed.agreed v) hr _
  have hkeeps : n.routine.Keeps last.routine := by
    rw [hlast]
    exact hr.keeps_calls _
  refine ⟨earlier, last, hsettle, hearlier, houtcome, fun v hv => ?_, hkeeps.types, hkeeps.locked,
    fun v => ?_, fun v before after => ?_⟩
  · apply hagrees
    rw [hkeeps.graph]
    exact hv
  · rw [temporaryDiffers_mem_verify, mem_observablesInOrder]
    rintro ⟨hv, hne⟩
    exact hne (hagrees v hv.2)
  · rw [lockedChanged_mem_verify]
    rintro ⟨t, ht, hne, -⟩
    obtain ⟨-, hlocked, rfl⟩ := mem_lockedTypes.mp ht
    exact hne (hkeeps.locked v hlocked).2

/-- Two values are locked at first, a recommendation locks another one during the first round, and
recovery converges in the second. -/
theorem concatenation_settle_verified : ∃ n earlier last, concatenation.build = .ok n ∧
    n.routine.lockedTypes = [(0, 7), (2, 8)] ∧ n.routine.recommended.locked 4 = true ∧
      n.routine.settle {} = earlier ++ [last] ∧ last.outcome = .converged ∧
      (∀ v, .temporaryDiffers v ∉ (last.routine.verify n.routine.lockedTypes).violations) ∧
      ∀ v before after,
        .lockedChanged v before after ∉ (last.routine.verify n.routine.lockedTypes).violations := by
  have hany : (concatenation.build.toOption.any fun n =>
      n.routine.lockedTypes = [(0, 7), (2, 8)] ∧ n.routine.recommended.locked 4 = true ∧
        (n.routine.settle {}).getLast?.map (·.outcome) = some .converged) = true := by
    decide +kernel
  cases hbuild : concatenation.build with
  | error e =>
    rw [hbuild] at hany
    cases hany
  | ok n =>
    rw [hbuild] at hany
    obtain ⟨hnoted, hlocked, houtcome⟩ := of_decide_eq_true hany
    obtain ⟨earlier, last, hsettle, -, -, -, -, -, hagree, hstay⟩ := settle_verified hbuild {}
    rw [hsettle, List.getLast?_concat] at houtcome
    exact ⟨n, earlier, last, rfl, hnoted, hlocked, hsettle, Option.some.inj houtcome, hagree, hstay⟩

end Description

end TypeRecovery
