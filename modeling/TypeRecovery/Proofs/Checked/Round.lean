import TypeRecovery.Proofs.Checked.Phases

/-!
# Checked runs of calls

A round is run only while the number of rounds is below a limit of 32 bits, so the number of the
next round fits them. The state that a call leaves is ready for the next call, whatever calls were
made before.
-/

namespace TypeRecovery

namespace Checked

open Routine (Call)

variable {g : Graph} {s : TypeState} {p : Pass} {r : Routine} {v : Nat}

/-! ## Rounds -/

/-- Run a phase of a round if it is asked for. -/
def phaseIf (asked : Bool) (phase : Pass → Checked Pass) (p : Pass) : Checked Pass :=
  if asked then phase p else .ok p

/-- The phases of a round between the recommendations and the commit. -/
def recover (c : Config) (g : Graph) (s : TypeState) : Checked Pass := do
  let skip := Recovery.skipsMerges c g
  let seeded ← seedAll g { state := s }
  let pushed ← propagateAll g skip seeded
  let unified ← phaseIf c.propagateAcrossReturns (unifyReturns g skip) pushed
  phaseIf c.propagateSpacebase (aliasFrame g skip) unified

/-- Commit the temporary type of a value. The second component tells whether anything changed. -/
def commitValue (s : TypeState × Bool) (v : VarnodeId) : Checked (TypeState × Bool) := do
  let known ← typing s.1 v
  return (s.1.commit v known.temporary,
    s.2 || (known.committed ≠ known.temporary && !known.locked))

/-- Commit the temporary types of all observable values. -/
def commitAll (g : Graph) (s : TypeState) : Checked (TypeState × Bool) := do
  (← observables g).foldlM commitValue (s, false)

/-- Run a round on a function for which another round is due. -/
def runRound (c : Config) (r : Routine) : Checked RoundResult := do
  let recommended ← applyRecommendations r.graph r.state
  let round ← within UInt32.size (r.progress.rounds + 1)
  let pass ← recover c r.graph recommended.1
  let committed ← commitAll r.graph pass.state
  if committed.2 then
    return {
      outcome := .changed round
      routine := { r with
        state := committed.1
        progress := .running round pass.stats }
      events := pass.events }
  else
    return {
      outcome := .converged
      routine := { r with
        state := committed.1
        progress := r.progress.converge pass.stats }
      events := pass.events }

/-- A phase runs without a fault, whether it is asked for or not. -/
theorem phaseIf_eq {phase : Pass → Checked Pass} {total : Pass → Pass}
    (h : ∀ p, Ready g p.state → phase p = .ok (total p) ∧ Ready g (total p).state)
    (hp : Ready g p.state) (asked : Bool) :
    phaseIf asked phase p = .ok (if asked then total p else p) ∧
      Ready g (if asked then total p else p).state := by
  cases asked with
  | true => exact h p hp
  | false => exact ⟨rfl, hp⟩

/-- Types are recovered without a fault. -/
theorem recover_eq (hg : g.WellFormed) (hi : g.Intact) (c : Config) (hs : Ready g s) :
    recover c g s = .ok (Recovery.recover c g s) ∧ Ready g (Recovery.recover c g s).state := by
  obtain ⟨hseed, hseeded⟩ := seedAll_eq (p := { state := s }) hg hi hs
  obtain ⟨hpush, hpushed⟩ := propagateAll_eq hg hi (Recovery.skipsMerges c g) hseeded
  obtain ⟨hunify, hunified⟩ := phaseIf_eq
    (fun _ hp => unifyReturns_eq hg hi (Recovery.skipsMerges c g) hp) hpushed
    c.propagateAcrossReturns
  rw [recover, hseed, ok_bind, hpush, ok_bind, hunify, ok_bind]
  exact phaseIf_eq (fun _ hp => aliasFrame_eq hg hi (Recovery.skipsMerges c g) hp) hunified
    c.propagateSpacebase

/-- A value is committed without a fault. -/
theorem commitValue_eq {s : TypeState × Bool} (hs : Ready g s.1) (hv : v < g.varnodes.size) :
    commitValue s v = .ok (Recovery.commitValue s v) ∧
      Ready g (Recovery.commitValue s v).1 := by
  rw [commitValue, typing_eq hs hv, ok_bind]
  exact ⟨rfl, hs.commit ((hs.valid_of hv).temporary v) v⟩

/-- All values are committed without a fault. -/
theorem commitAll_eq (hg : g.WellFormed) (hs : Ready g s) :
    commitAll g s = .ok (Recovery.commitAll g s) ∧ Ready g (Recovery.commitAll g s).1 := by
  rw [commitAll, observables_eq hg, ok_bind]
  exact foldlM_eq (P := fun x : TypeState × Bool => Ready g x.1) hs
    fun v hv x hx => commitValue_eq hx (lt_of_mem_observables hg hv)

/-- A round that is due runs without a fault. -/
theorem runRound_eq (hg : r.graph.WellFormed) (hi : r.graph.Intact) (hs : Ready r.graph r.state)
    {c : Config} (hdue : r.progress.rounds < c.maxRounds.toNat) :
    runRound c r = .ok (r.runRound c) ∧ Ready r.graph (r.runRound c).routine.state := by
  obtain ⟨hrecommend, hrecommended⟩ := applyRecommendations_eq hg hs
  obtain ⟨hrecover, hrecovered⟩ := recover_eq hg hi c hrecommended
  obtain ⟨hcommit, hcommitted⟩ := commitAll_eq hg hrecovered
  have hround : r.progress.rounds + 1 < UInt32.size :=
    Nat.lt_of_le_of_lt hdue (UInt32.toNat_lt c.maxRounds)
  rw [Routine.state_runRound]
  refine ⟨?_, hcommitted⟩
  rw [runRound, hrecommend, ok_bind, within_eq hround, ok_bind, hrecover, ok_bind, hcommit,
    ok_bind, Routine.runRound]
  dsimp only
  split <;> rfl

/-! ## Calls -/

/-- Run one round of type recovery, if one is due. -/
def apply (c : Config) (r : Routine) : Checked RoundResult :=
  if !r.started then .ok ⟨.notStarted, r, #[]⟩
  else if r.progress.isFinished then .ok ⟨.noOp, r, #[]⟩
  else if c.maxRounds.toNat ≤ r.progress.rounds then .ok ⟨.capped, r.cap, #[]⟩
  else runRound c r

/-- The function after a call. -/
def call (r : Routine) : Call → Checked Routine
  | .apply c => return (← apply c r).routine
  | .reset => .ok r.reset

/-- The function after a sequence of calls. -/
def calls (r : Routine) (sequence : List Call) : Checked Routine := sequence.foldlM call r

/-- A function on which checked runs of calls give results. -/
structure Sound (r : Routine) : Prop where
  /-- The parts of the function refer to what exists. -/
  wellFormed : r.WellFormed
  /-- So do the parts of the graph that calls do not change. -/
  intact : r.graph.Intact
  /-- Types are within bounds. -/
  laid : r.state.types.Laid r.graph.spaces.size
  /-- Choices are for ops that exist. -/
  choices : ∀ x ∈ r.state.choices, x.1.1 < r.graph.ops.size

/-- A sound function is ready. -/
theorem Sound.ready (h : Sound r) : Ready r.graph r.state where
  valid := h.wellFormed.valid
  laid := h.laid
  mentioned := h.wellFormed.mentioned
  count := h.wellFormed.sizes
  choices := h.choices

/-- A function stays sound when its graph stays and its state is ready again. -/
theorem Sound.of_ready (h : Sound r) {r' : Routine} (hwf : r'.WellFormed)
    (hgraph : r'.graph = r.graph) (hs : Ready r.graph r'.state) : Sound r' where
  wellFormed := hwf
  intact := hgraph ▸ h.intact
  laid := hgraph ▸ hs.laid
  choices := hgraph ▸ hs.choices

/-- A sound function is applied without a fault, and stays sound. -/
theorem Sound.apply (h : Sound r) (c : Config) :
    Checked.apply c r = .ok (r.apply c) ∧ Sound (r.apply c).routine := by
  have hwf := h.wellFormed.apply c
  have hgraph := r.graph_apply c
  suffices hrun : Checked.apply c r = .ok (r.apply c) ∧ Ready r.graph (r.apply c).routine.state from
    ⟨hrun.1, h.of_ready hwf hgraph hrun.2⟩
  clear hwf hgraph
  rw [Checked.apply, Routine.apply]
  split
  · exact ⟨rfl, h.ready⟩
  · split
    · exact ⟨rfl, h.ready⟩
    · split
      · exact ⟨rfl, h.ready⟩
      · rename_i hdue
        exact runRound_eq h.wellFormed.graph h.intact h.ready (Nat.lt_of_not_le hdue)

/-- A sound function is called without a fault, and stays sound. -/
theorem Sound.call (h : Sound r) (a : Call) : Checked.call r a = .ok (r.call a) ∧
    Sound (r.call a) := by
  cases a with
  | apply c =>
    obtain ⟨hok, hsound⟩ := h.apply c
    refine ⟨?_, hsound⟩
    rw [Checked.call, hok]
    rfl
  | reset => exact ⟨rfl, h.of_ready h.wellFormed.reset rfl h.ready⟩

/-- Every sequence of calls runs to its end without a fault. -/
theorem Sound.calls (h : Sound r) (sequence : List Call) :
    Checked.calls r sequence = .ok (r.calls sequence) ∧ Sound (r.calls sequence) :=
  foldlM_eq (P := Sound) h fun a _ _ hx => hx.call a

end Checked

end TypeRecovery
