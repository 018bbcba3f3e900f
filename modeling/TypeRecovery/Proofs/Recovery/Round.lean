import TypeRecovery.Proofs.Transfer.Local
import TypeRecovery.Proofs.Recovery.Trace

/-!
# The ends of a round

A round starts with recommended types and first guesses, and ends with a commit. Recommendations
only lock values, guesses only add types and replace temporary types, and the commit only replaces
committed types. A round of a well-formed function therefore keeps all its types in the table. The
last part is about sequences of rounds and resets, which leave the graph alone.
-/

namespace TypeRecovery

namespace Recovery

open TypeTable TypeState

variable {g : Graph} {s s' : TypeState} {p : Pass}

/-! ## Recommendations -/

/-- The second state differs from the first by values that were locked. -/
structure Locks (s s' : TypeState) : Prop where
  /-- The table is the same. -/
  types : s'.types = s.types
  /-- The choices of fields are the same. -/
  choices : s'.choices = s.choices
  /-- The number of values is the same. -/
  size : s'.values.size = s.values.size
  /-- Locked values stay locked. -/
  locked : ∀ v, s.locked v = true → s'.locked v = true

/-- Nothing has to be locked. -/
theorem Locks.refl (s : TypeState) : Locks s s := ⟨rfl, rfl, rfl, fun _ h => h⟩

/-- Values may be locked one after the other. -/
theorem Locks.trans {s'' : TypeState} (h : Locks s s') (h' : Locks s' s'') : Locks s s'' :=
  ⟨h'.types.trans h.types, h'.choices.trans h.choices, h'.size.trans h.size,
    fun v hv => h'.locked v (h.locked v hv)⟩

private theorem locks_lock (s : TypeState) (v t : Nat) : Locks s (s.lock v t) := by
  refine ⟨rfl, rfl, size_lock, fun w hw => ?_⟩
  rw [locked_lock]
  split
  · rfl
  · exact hw

/-- A recommendation locks a value or does nothing. -/
theorem applyRecommendation_locks (s : TypeState × Nat) (r : Recommendation) :
    Locks s.1 (applyRecommendation g s r).1 := by
  rw [applyRecommendation]
  cases g.findInput? (s.1.types.size r.type) r.address with
  | none => exact .refl _
  | some v =>
    dsimp only
    split
    · exact .refl _
    · exact locks_lock ..

private theorem applyRecommendation_valid {s : TypeState × Nat} (hs : s.1.Valid)
    {r : Recommendation} (hr : s.1.types.Has r.type) : (applyRecommendation g s r).1.Valid := by
  rw [applyRecommendation]
  cases g.findInput? (s.1.types.size r.type) r.address with
  | none => exact hs
  | some v =>
    dsimp only
    split
    · exact hs
    · exact hs.lock hr

/-- An input that is found is a value of the graph. -/
theorem lt_of_findInput? (hg : g.WellFormed) {size v : Nat} {a : Address}
    (h : g.findInput? size a = some v) : v < g.varnodes.size := by
  obtain ⟨-, -, l, hl, -, -, rfl⟩ := Graph.findInput?_spec h
  exact (hg.located l.id).mp (List.mem_map_of_mem hl)

/-- The input that a recommendation is for is locked once the recommendation was applied. -/
theorem applyRecommendation_locked (hg : g.WellFormed) {s : TypeState × Nat}
    (hsize : s.1.values.size = g.varnodes.size) {r : Recommendation} {v : Nat}
    (hv : g.findInput? (s.1.types.size r.type) r.address = some v) :
    (applyRecommendation g s r).1.locked v = true := by
  rw [applyRecommendation, hv]
  dsimp only
  split
  · assumption
  · rw [locked_lock, if_pos ⟨rfl, hsize ▸ lt_of_findInput? hg hv⟩]

/-- The recommendations lock values to types that exist, and every input that one of them applies to
is locked in the end. -/
theorem applyRecommendations_foldl (hg : g.WellFormed) {s : TypeState × Nat} (hs : s.1.Valid)
    (hsize : s.1.values.size = g.varnodes.size) {todo : List Recommendation}
    (htypes : ∀ r ∈ todo, s.1.types.Has r.type) :
    Locks s.1 (todo.foldl (applyRecommendation g) s).1 ∧
      (todo.foldl (applyRecommendation g) s).1.Valid ∧
      ∀ r ∈ todo, ∀ v, g.findInput? (s.1.types.size r.type) r.address = some v →
        (todo.foldl (applyRecommendation g) s).1.locked v = true := by
  induction todo generalizing s with
  | nil => exact ⟨.refl _, hs, fun _ hr => by cases hr⟩
  | cons r rest ih =>
    have hstep := applyRecommendation_locks (g := g) s r
    have hvalid := applyRecommendation_valid (g := g) hs (htypes r List.mem_cons_self)
    obtain ⟨hlocks, hlast, hrest⟩ := ih hvalid (hstep.size.trans hsize) fun r' hr' => by
      rw [hstep.types]
      exact htypes r' (List.mem_cons_of_mem r hr')
    refine ⟨hstep.trans hlocks, hlast, ?_⟩
    intro r' hr' v hv
    rcases List.mem_cons.mp hr' with rfl | hlater
    · exact hlocks.locked v (applyRecommendation_locked hg hsize hv)
    · exact hrest r' hlater v (by rw [hstep.types]; exact hv)

/-- Recommendations for inputs that are locked change nothing. -/
theorem applyRecommendations_eq_self
    (h : ∀ r ∈ g.recommendations, ∀ v, g.findInput? (s.types.size r.type) r.address = some v →
      s.locked v = true) : applyRecommendations g s = (s, 0) := by
  rw [applyRecommendations]
  generalize g.recommendations = todo at h
  induction todo with
  | nil => rfl
  | cons r rest ih =>
    have hstep : applyRecommendation g (s, 0) r = (s, 0) := by
      rw [applyRecommendation]
      cases hv : g.findInput? (s.types.size r.type) r.address with
      | none => rfl
      | some v => exact if_pos (h r List.mem_cons_self v hv)
    rw [List.foldl_cons, hstep]
    exact ih fun r' hr' => h r' (List.mem_cons_of_mem r hr')

/-! ## First guesses -/

/-- The piece of a symbol exists if the type of the symbol does. -/
theorem has_symbolPiece (hs : s.Valid) (hg : g.TypesIn s.types) {v t : Nat}
    (h : symbolPiece? g s v = some t) : s.types.Has t := by
  rw [symbolPiece?] at h
  cases he : (g.varnode v).entry.bind (g.entries[·]?) with
  | none => rw [he] at h; cases h
  | some entry =>
    rw [he] at h
    dsimp only at h
    cases hsym : g.symbols[entry.symbol]? with
    | none => rw [hsym] at h; cases h
    | some symbol =>
      rw [hsym] at h
      dsimp only at h
      split at h
      · rw [Option.filter_eq_some_iff] at h
        exact hs.types.has_exactPiece (hg.symbols symbol (Array.mem_of_getElem? hsym)) h.1
      · cases h

private theorem symbolPiece?_again (hs : s.Valid) (hg : g.TypesIn s.types)
    (hlocked : ∀ v, s'.locked v = s.locked v) (hu : s.types.Extends s'.types) (v : Nat) :
    symbolPiece? g s' v = symbolPiece? g s v := by
  rw [symbolPiece?, symbolPiece?]
  cases (g.varnode v).entry.bind (g.entries[·]?) with
  | none => rfl
  | some entry =>
    dsimp only
    cases hsym : g.symbols[entry.symbol]? with
    | none => rfl
    | some symbol =>
      have hhas := hg.symbols symbol (Array.mem_of_getElem? hsym)
      dsimp only
      rw [hlocked v, hu.exactPiece hs.types hhas]
      split
      · cases ht : s.types.exactPiece symbol.type ((g.varnode v).address.offset -
            entry.address.offset + UInt64.ofNat entry.offset).toNat (g.varnode v).size with
        | none => rfl
        | some t => simp only [Option.filter, hu.metatype (hs.types.has_exactPiece hhas ht)]
      · rfl

/-- The first guess at the type of a value exists. -/
theorem gives_seedType (hs : s.Valid) (hg : g.TypesIn s.types) (v : Nat) :
    s.types.Gives ⟨(seedType g s v).id, (seedType g s v).table⟩ := by
  rw [seedType]
  cases hp : symbolPiece? g s v with
  | some t => exact gives_self (has_symbolPiece hs hg hp)
  | none => exact Transfer.gives_localType hs hg v

/-- A guess that was made can be made again in a later state. -/
theorem seedType_again (hs : s.Valid) (hg : g.TypesIn s.types) (hsame : Transfer.SameFixed g s s')
    {v : Nat} (h : (seedType g s v).table.Extends s'.types) :
    seedType g s' v = (seedType g s v).into s'.types := by
  have hu := (gives_seedType hs hg v).grows.extends.trans h
  rw [seedType] at h
  rw [seedType, seedType, symbolPiece?_again hs hg hsame.locked hu]
  cases hp : symbolPiece? g s v with
  | some t => rfl
  | none =>
    rw [hp] at h
    exact Transfer.localType_again hs hg hsame h

/-- The state in which a value gets its first guess. -/
def guessedState (s : TypeState) (v : VarnodeId) (guess : Transfer.Guess) : TypeState :=
  if guess.blocks then (s.withTypes guess.table).block v else s.withTypes guess.table

/-- The first guess at a value becomes its temporary type, once the table and the blocking are
noted. -/
theorem state_seedValue (g : Graph) (p : Pass) (v : Nat) :
    (seedValue g p v).state =
      (guessedState p.state v (seedType g p.state v)).setTemporary v (seedType g p.state v).id := by
  rw [seedValue, Pass.state_setTemporary]
  rfl

/-- Guessing counts nothing. -/
theorem stats_seedValue (g : Graph) (p : Pass) (v : Nat) :
    (seedValue g p v).stats = p.stats := by
  rw [seedValue, Pass.stats_setTemporary]

section Guessed

variable {v : Nat} {guess : Transfer.Guess}

@[simp] theorem types_guessedState : (guessedState s v guess).types = guess.table := by
  rw [guessedState]
  split <;> rfl

@[simp] theorem choices_guessedState : (guessedState s v guess).choices = s.choices := by
  rw [guessedState]
  split <;> rfl

@[simp] theorem size_guessedState : (guessedState s v guess).values.size = s.values.size := by
  rw [guessedState]
  split
  · exact size_block
  · rfl

@[simp] theorem temporary_guessedState (w : Nat) :
    (guessedState s v guess).temporary w = s.temporary w := by
  rw [guessedState]
  split
  · exact temporary_block
  · rfl

@[simp] theorem committed_guessedState (w : Nat) :
    (guessedState s v guess).committed w = s.committed w := by
  rw [guessedState]
  split
  · exact committed_block
  · rfl

@[simp] theorem locked_guessedState (w : Nat) :
    (guessedState s v guess).locked w = s.locked w := by
  rw [guessedState]
  split
  · exact locked_block
  · rfl

/-- A guess can block its value and no other one. -/
theorem blocked_guessedState (w : Nat) : (guessedState s v guess).blocked w =
    if guess.blocks = true ∧ w = v ∧ v < s.values.size then true else s.blocked w := by
  rw [guessedState]
  cases guess.blocks with
  | false => rfl
  | true =>
    rw [if_pos rfl, blocked_block]
    simp only [true_and]
    rfl

end Guessed

/-- Guessing adds no value. -/
theorem size_seedValue (g : Graph) (p : Pass) (v : Nat) :
    (seedValue g p v).state.values.size = p.state.values.size := by
  rw [state_seedValue, size_setTemporary, size_guessedState]

/-- A guess adds types and keeps the state valid. -/
theorem seedValue_later (hp : p.state.Valid) (hg : g.TypesIn p.state.types) (v : Nat) :
    p.state.Later (seedValue g p v).state ∧ (seedValue g p v).state.Valid := by
  obtain ⟨hgrows, hhas⟩ := gives_seedType hp hg v
  rw [state_seedValue]
  generalize seedType g p.state v = guess at hgrows hhas ⊢
  have hguessed : p.state.Later (guessedState p.state v guess) := by
    refine ⟨by simpa using hgrows, fun o slot field hf => ?_, size_guessedState,
      committed_guessedState, locked_guessedState, fun w hw => ?_⟩
    · rw [choice?, choices_guessedState]
      exact hf
    · rw [blocked_guessedState]
      split
      · rfl
      · exact hw
  have hvalid : (guessedState p.state v guess).Valid := by
    refine ⟨by simpa using hgrows.wellFormed hp.types, fun w => ?_, fun w => ?_⟩
    · simpa using hgrows.extends.has (hp.temporary w)
    · simpa using hgrows.extends.has (hp.committed w)
  exact ⟨hguessed.trans (later_setTemporary ..), hvalid.setTemporary (by simpa using hhas)⟩

/-- Guesses one after the other add types and keep the state valid. -/
theorem seedValue_foldl_later (todo : List VarnodeId) (hp : p.state.Valid)
    (hg : g.TypesIn p.state.types) :
    p.state.Later (todo.foldl (seedValue g) p).state ∧
      (todo.foldl (seedValue g) p).state.Valid := by
  induction todo generalizing p with
  | nil => exact ⟨.refl _, hp⟩
  | cons v rest ih =>
    obtain ⟨hlater, hvalid⟩ := seedValue_later hp hg v
    obtain ⟨hlater', hvalid'⟩ := ih hvalid (hg.mono hlater.types.extends)
    exact ⟨hlater.trans hlater', hvalid'⟩

/-- The first guesses of a round add types and keep the state valid. -/
theorem seedAll_later (hp : p.state.Valid) (hg : g.TypesIn p.state.types) :
    p.state.Later (seedAll g p).state ∧ (seedAll g p).state.Valid :=
  seedValue_foldl_later g.observables hp hg

/-- The events of the first guesses are guesses. -/
theorem seedAll_events (g : Graph) (s : TypeState) :
    ∀ e ∈ (seedAll g { state := s }).events.toList, ∃ v old new, e = .changed v old new .seed := by
  rw [seedAll]
  generalize hp : ({ state := s } : Pass) = p
  have hstart : ∀ e ∈ p.events.toList, ∃ v old new, e = .changed v old new .seed := by
    rw [← hp]
    exact fun e he => by cases he
  clear hp
  generalize g.observables = todo
  induction todo generalizing p with
  | nil => exact hstart
  | cons v rest ih =>
    apply ih
    intro e he
    rw [seedValue] at he
    rcases Pass.events_setTemporary _ v (seedType g p.state v).id .seed with hsame | hpush
    · rw [hsame] at he
      exact hstart e he
    · rw [hpush, Array.toList_push, List.mem_append, List.mem_singleton] at he
      rcases he with hold | rfl
      · exact hstart e hold
      · exact ⟨_, _, _, rfl⟩

/-! ## The commit -/

/-- Commits touch neither types nor choices, temporary types, locks or blocks. -/
theorem commitValue_foldl_frame (todo : List VarnodeId) (s : TypeState × Bool) :
    (todo.foldl commitValue s).1.types = s.1.types ∧
      (todo.foldl commitValue s).1.choices = s.1.choices ∧
      (todo.foldl commitValue s).1.values.size = s.1.values.size ∧
      ∀ v, (todo.foldl commitValue s).1.temporary v = s.1.temporary v ∧
        (todo.foldl commitValue s).1.locked v = s.1.locked v ∧
        (todo.foldl commitValue s).1.blocked v = s.1.blocked v := by
  induction todo generalizing s with
  | nil => exact ⟨rfl, rfl, rfl, fun _ => ⟨rfl, rfl, rfl⟩⟩
  | cons w rest ih =>
    have hrest := ih (commitValue s w)
    simpa [commitValue] using hrest

/-- A commit keeps everything but the committed types. -/
theorem commitAll_frame (g : Graph) (s : TypeState) :
    (commitAll g s).1.types = s.types ∧ (commitAll g s).1.choices = s.choices ∧
      (commitAll g s).1.values.size = s.values.size ∧
      ∀ v, (commitAll g s).1.temporary v = s.temporary v ∧
        (commitAll g s).1.locked v = s.locked v ∧ (commitAll g s).1.blocked v = s.blocked v :=
  commitValue_foldl_frame g.observables (s, false)

/-- Commits one after the other give each value its temporary type, unless it is locked. -/
theorem committed_commitValue_foldl (todo : List VarnodeId) (s : TypeState × Bool) (v : Nat) :
    (todo.foldl commitValue s).1.committed v =
      if v ∈ todo ∧ v < s.1.values.size ∧ s.1.locked v = false then s.1.temporary v
      else s.1.committed v := by
  induction todo generalizing s with
  | nil => simp
  | cons w rest ih =>
    rw [List.foldl_cons, ih, commitValue]
    simp only [size_commit, locked_commit, temporary_commit, committed_commit]
    by_cases hw : v = w
    · subst hw
      by_cases hfree : v < s.1.values.size ∧ s.1.locked v = false
      · simp [hfree]
      · have hmem (l : List VarnodeId) : ¬(v ∈ l ∧ v < s.1.values.size ∧ s.1.locked v = false) :=
          fun h => hfree h.2
        rw [if_neg (hmem _), if_neg (hmem _), if_neg fun h => hfree h.2]
    · simp [hw]

/-- What a commit makes of the committed types. -/
theorem committed_commitAll (g : Graph) (s : TypeState) (v : Nat) :
    (commitAll g s).1.committed v =
      if v ∈ g.observables ∧ v < s.values.size ∧ s.locked v = false then s.temporary v
      else s.committed v :=
  committed_commitValue_foldl g.observables (s, false) v

/-- If no observable value has anything to commit, a commit changes nothing. -/
theorem commitAll_eq_self (h : ∀ v ∈ g.observables, s.canCommit v (s.temporary v) = false) :
    commitAll g s = (s, false) := by
  rw [commitAll]
  generalize g.observables = todo at h
  induction todo with
  | nil => rfl
  | cons v rest ih =>
    have hv := h v List.mem_cons_self
    have hstep : commitValue (s, false) v = (s, false) := by
      rw [commitValue]
      dsimp only
      rw [commit, hv]
      rfl
    rw [List.foldl_cons, hstep]
    exact ih fun w hw => h w (List.mem_cons_of_mem v hw)

/-- A second commit finds nothing to do. -/
theorem commitAll_commitAll (h : ∀ v ∈ g.observables, v < s.values.size) :
    commitAll g (commitAll g s).1 = ((commitAll g s).1, false) := by
  apply commitAll_eq_self
  intro v hv
  obtain ⟨-, -, -, hframe⟩ := commitAll_frame g s
  rw [canCommit, committed_commitAll, (hframe v).1, (hframe v).2.1]
  cases hlocked : s.locked v with
  | true => exact Bool.and_false _
  | false =>
    rw [if_pos ⟨hv, h v hv, rfl⟩]
    simp

/-- Committed types exist as temporary types do. -/
theorem commitAll_valid (g : Graph) (hs : s.Valid) : (commitAll g s).1.Valid := by
  obtain ⟨htypes, -, -, hframe⟩ := commitAll_frame g s
  refine ⟨by rw [htypes]; exact hs.types, fun v => ?_, fun v => ?_⟩
  · rw [htypes, (hframe v).1]
    exact hs.temporary v
  · rw [htypes, committed_commitAll]
    split
    · exact hs.temporary v
    · exact hs.committed v

/-- A graph without values has no observable ones. -/
theorem observables_of_empty (hg : g.WellFormed) (hempty : g.varnodes.size = 0) :
    g.observables = [] := by
  apply List.eq_nil_iff_forall_not_mem.mpr
  intro v hv
  have hlt := Graph.WellFormed.lt_of_observable (hg.mem_observables.mp hv)
  rw [hempty] at hlt
  exact Nat.not_lt_zero v hlt

/-- Nothing happens in a graph without values. -/
theorem recover_of_empty (c : Config) (hg : g.WellFormed) (hempty : g.varnodes.size = 0)
    (s : TypeState) : recover c g s = { state := s } := by
  have hnone (v : Nat) : ¬v < g.varnodes.size := by omega
  have hreturned : returnedValues g = [] := List.eq_nil_iff_forall_not_mem.mpr fun v hv => by
    obtain ⟨o, -, hin⟩ := mem_inputs_of_mem_returnedValues hv
    exact hnone v (hg.lt_of_mem_inputs hin)
  have hreferences (base : Nat) : frameReferences g base = [] := by
    rw [frameReferences, Graph.varnode_of_le (Nat.le_of_not_lt (hnone base))]
    rfl
  have hunify (skip : Bool) (p : Pass) : unifyReturns g skip p = p := by
    rw [unifyReturns, hreturned]
    split <;> rfl
  have halias (skip : Bool) (p : Pass) : aliasFrame g skip p = p := by
    rw [aliasFrame]
    split
    · rfl
    · rw [hreferences]
      split <;> rfl
  rw [recover, propagateAll, seedAll, observables_of_empty hg hempty]
  simp only [List.foldl_nil, hunify, halias, ite_self]

end Recovery

namespace Routine

open Recovery

variable {r : Routine} {c : Config}

/-- The types when the recommendations are installed. -/
def recommended (r : Routine) : TypeState := (applyRecommendations r.graph r.state).1

/-- The pass when the first guesses are made. -/
def guessed (r : Routine) : Pass := seedAll r.graph { state := r.recommended }

/-- The pass of a round before the commit. -/
def pass (c : Config) (r : Routine) : Pass := recover c r.graph r.recommended

/-- The events of a round are those of its pass. -/
theorem events_runRound : (r.runRound c).events = (r.pass c).events := by
  rw [runRound]
  dsimp only
  split <;> rfl

/-- After a round the types are those of its pass, committed. -/
theorem state_runRound :
    (r.runRound c).routine.state = (commitAll r.graph (r.pass c).state).1 := by
  rw [runRound]
  dsimp only
  split <;> rfl

/-- A round does not touch the graph. -/
theorem graph_runRound : (r.runRound c).routine.graph = r.graph := by
  rw [runRound]
  dsimp only
  split <;> rfl

/-- A round whose commit changes nothing ends recovery. -/
theorem runRound_of_commitAll {s : TypeState}
    (h : commitAll r.graph (r.pass c).state = (s, false)) :
    r.runRound c =
      { outcome := .converged
        routine := { r with
          state := s
          progress := r.progress.converge (r.pass c).stats }
        events := (r.pass c).events } := by
  rw [pass, recommended] at h
  rw [runRound, h]
  rfl

/-- A call runs a round, or it notes no event, reports neither a change nor convergence, and leaves
the types as they are. -/
theorem apply_cases (c : Config) (r : Routine) : r.apply c = r.runRound c ∨
    (r.apply c).events = #[] ∧ (r.apply c).outcome ≠ .converged ∧
      (r.apply c).outcome.isChanged = false ∧ (r.apply c).routine.state = r.state := by
  rw [apply]
  split
  · exact Or.inr ⟨rfl, Outcome.noConfusion, rfl, rfl⟩
  · split
    · exact Or.inr ⟨rfl, Outcome.noConfusion, rfl, rfl⟩
    · split
      · exact Or.inr ⟨rfl, Outcome.noConfusion, rfl, rfl⟩
      · exact Or.inl rfl

namespace WellFormed

variable (hr : r.WellFormed) (hpos : 0 < r.graph.varnodes.size)

include hr hpos

/-- Before a round guesses, the recommended types are fixed. -/
theorem recommended_spec : Locks r.state r.recommended ∧ r.recommended.Valid ∧
    ∀ x ∈ r.graph.recommendations, ∀ v,
      r.graph.findInput? (r.state.types.size x.type) x.address = some v →
        r.recommended.locked v = true :=
  applyRecommendations_foldl (s := (r.state, 0)) hr.graph (hr.valid hpos) hr.sizes
    hr.mentioned.recommendations

/-- Types that the graph mentions still exist then. -/
theorem recommended_typesIn : r.graph.TypesIn r.recommended.types := by
  rw [(hr.recommended_spec hpos).1.types]
  exact hr.mentioned

/-- The first guesses come after the recommendations. -/
theorem guessed_later : r.recommended.Later r.guessed.state ∧ r.guessed.state.Valid :=
  seedAll_later (p := { state := r.recommended }) (hr.recommended_spec hpos).2.1
    (hr.recommended_typesIn hpos)

/-- Something is known of each value when the guesses are made. -/
theorem size_guessed : r.guessed.state.values.size = r.graph.varnodes.size := by
  rw [(hr.guessed_later hpos).1.size, (hr.recommended_spec hpos).1.size, hr.sizes]

/-- A round of a well-formed function runs through its phases. -/
theorem phases (c : Config) : ∃ pushed unified flows t returns frames,
    Phases r.graph (skipsMerges c r.graph) r.guessed pushed unified (r.pass c) flows t returns
      frames :=
  recover_phases c hr.graph (hr.guessed_later hpos).2

/-- A pass only adds types and choices, and replaces temporary types. -/
theorem pass_later (c : Config) :
    r.recommended.Later (r.pass c).state ∧ (r.pass c).state.Valid := by
  obtain ⟨hlater, hvalid⟩ := hr.guessed_later hpos
  obtain ⟨pushed, unified, flows, t, returns, frames, hphases⟩ := hr.phases hpos c
  exact ⟨hlater.trans (hphases.run.later hvalid), hphases.run.valid hvalid⟩

/-- A round locks no value but by its recommendations. -/
theorem locked_runRound (c : Config) (v : Nat) :
    (r.runRound c).routine.state.locked v = r.recommended.locked v := by
  rw [state_runRound, ((commitAll_frame r.graph (r.pass c).state).2.2.2 v).2.1,
    (hr.pass_later hpos c).1.locked]

/-- A round keeps the committed types of locked values. -/
theorem committed_runRound_of_locked {v : Nat} (hv : r.recommended.locked v = true)
    (c : Config) : (r.runRound c).routine.state.committed v = r.recommended.committed v := by
  obtain ⟨hlater, -⟩ := hr.pass_later hpos c
  have hlocked : ¬(v ∈ r.graph.observables ∧ v < (r.pass c).state.values.size ∧
      (r.pass c).state.locked v = false) := by
    rintro ⟨-, -, hfree⟩
    rw [hlater.locked, hv] at hfree
    cases hfree
  rw [state_runRound, committed_commitAll, if_neg hlocked, hlater.committed]

end WellFormed

/-- A function in which a round notes an event has values. -/
theorem WellFormed.pos_of_events (hr : r.WellFormed) (h : (r.pass c).events ≠ #[]) :
    0 < r.graph.varnodes.size := by
  apply Nat.pos_of_ne_zero
  intro hempty
  rw [pass, recover_of_empty c hr.graph hempty] at h
  exact h rfl

/-- A round on a graph without values leaves the state as it is. -/
theorem WellFormed.state_runRound_of_empty (hr : r.WellFormed) (hempty : r.graph.varnodes.size = 0)
    (c : Config) : (r.runRound c).routine.state = r.state := by
  have hrecommended : applyRecommendations r.graph r.state = (r.state, 0) :=
    applyRecommendations_eq_self fun x _ v hv => by
      have hlt := lt_of_findInput? hr.graph hv
      rw [hempty] at hlt
      exact absurd hlt (Nat.not_lt_zero v)
  rw [state_runRound, pass, recover_of_empty c hr.graph hempty, recommended, hrecommended,
    commitAll, observables_of_empty hr.graph hempty]
  rfl

/-- A round keeps a function well-formed. -/
theorem WellFormed.runRound (hr : r.WellFormed) (c : Config) :
    (r.runRound c).routine.WellFormed := by
  obtain ⟨htypes, -, hsize, -⟩ := commitAll_frame r.graph (r.pass c).state
  by_cases hpos : 0 < r.graph.varnodes.size
  · obtain ⟨hlocks, -⟩ := hr.recommended_spec hpos
    obtain ⟨hlater, hvalid⟩ := hr.pass_later hpos c
    refine hr.of_valid graph_runRound ?_ ?_ ?_ <;> rw [state_runRound]
    · rw [htypes, ← hlocks.types]
      exact hlater.types.extends
    · rw [hsize, hlater.size, hlocks.size]
    · exact commitAll_valid r.graph hvalid
  · exact hr.congr graph_runRound (hr.state_runRound_of_empty (Nat.eq_zero_of_not_pos hpos) c)

/-- A call keeps a function well-formed. -/
theorem WellFormed.apply (hr : r.WellFormed) (c : Config) : (r.apply c).routine.WellFormed := by
  rw [Routine.apply]
  split
  · exact hr
  · split
    · exact hr
    · split
      · exact hr.congr rfl rfl
      · exact hr.runRound c

/-- The calls that settle a function keep it well-formed. -/
theorem WellFormed.settleWithin (hr : r.WellFormed) (c : Config) (calls : Nat) :
    ∀ result ∈ r.settleWithin c calls, result.routine.WellFormed := by
  induction calls generalizing r with
  | zero => exact fun result hresult => by cases hresult
  | succ calls ih =>
    intro result hresult
    rw [Routine.settleWithin] at hresult
    split at hresult
    · rcases List.mem_cons.mp hresult with rfl | hlater
      · exact hr.apply c
      · exact ih (hr.apply c) result hlater
    · rw [List.mem_singleton.mp hresult]
      exact hr.apply c

/-- A reset keeps a function well-formed. -/
theorem WellFormed.reset (hr : r.WellFormed) : r.reset.WellFormed := hr.congr rfl rfl

/-! ## Sequences of calls -/

/-- A call for a round does not touch the graph. -/
theorem graph_apply (c : Config) (r : Routine) : (r.apply c).routine.graph = r.graph := by
  rw [apply]
  split
  · rfl
  · split
    · rfl
    · split
      · rfl
      · exact graph_runRound

/-- A call by which type recovery goes on or starts afresh. -/
inductive Call where
  /-- Run one round, if one is due. -/
  | apply (c : Config)
  /-- Forget the state of the rounds. -/
  | reset
  deriving DecidableEq, Repr

/-- The function after a call. -/
def call (r : Routine) : Call → Routine
  | .apply c => (r.apply c).routine
  | .reset => r.reset

/-- The function after a sequence of calls. -/
def calls (r : Routine) (sequence : List Call) : Routine := sequence.foldl call r

/-- No call touches the graph. -/
theorem graph_call (r : Routine) (a : Call) : (r.call a).graph = r.graph := by
  cases a with
  | apply c => exact graph_apply c r
  | reset => rfl

/-- No sequence of calls touches the graph. -/
theorem graph_calls (r : Routine) (sequence : List Call) :
    (r.calls sequence).graph = r.graph :=
  List.foldlRecOn (motive := fun x : Routine => x.graph = r.graph) sequence _ rfl
    fun x hx a _ => (x.graph_call a).trans hx

end Routine

end TypeRecovery
