import Mathlib.Algebra.Order.BigOperators.Group.List
import Mathlib.Algebra.Order.Ring.Nat
import TypeRecovery.Proofs.Recovery.Frame

/-!
# Counters of a round

A traversal enters each value at most once, and it tries the edges of the values it enters. So the
counters of a round are bounded by the number of its traversals, the number of values and the number
of edges, which are all given by the graph.
-/

namespace TypeRecovery

namespace Recovery

open TypeState

variable {g : Graph} {skip : Bool} {p q : Pass} {w w' : Walk}

/-- The number of edges that leave the values of a list. -/
def edgesFrom (g : Graph) (values : List VarnodeId) : Nat :=
  (values.map fun v => (edges g v).length).sum

/-- The number of edges of a graph. -/
def edgeCount (g : Graph) : Nat := edgesFrom g (List.range g.varnodes.size)

/-- The number of pointers into the frame from which types are copied. -/
def referenceCount (g : Graph) : Nat :=
  g.spaceBase.elim 0 fun base => (frameReferences g base).length

/-- The most traversals that a round makes: one for each observable value, one for each returned
value, and one for each value and each pointer into the frame. -/
def traversalLimit (g : Graph) : Nat :=
  g.observables.length + (returnedValues g).length + referenceCount g * g.locations.length

/-! ## Traversals -/

/-- What the counters of a walk can be after `tries` edges and all that is tried from the values
that are entered on the way. -/
structure Spends (g : Graph) (tries : Nat) (w w' : Walk) : Prop where
  /-- The edges of the values entered meanwhile are tried. -/
  tried : w'.pass.stats.edgesTried + edgesFrom g w.visited ≤
    w.pass.stats.edgesTried + edgesFrom g w'.visited + tries
  /-- Types are taken along edges that are tried. -/
  accepted : w'.pass.stats.edgesAccepted + w.pass.stats.edgesTried ≤
    w.pass.stats.edgesAccepted + w'.pass.stats.edgesTried
  /-- Values that are entered are counted. -/
  entered : w'.pass.stats.valuesEntered + w.visited.length =
    w.pass.stats.valuesEntered + w'.visited.length

/-- A walk that does nothing spends nothing. -/
theorem Spends.refl (tries : Nat) (w : Walk) : Spends g tries w w :=
  ⟨Nat.le_add_right _ _, Nat.le_refl _, rfl⟩

/-- What a walk spends adds up. -/
theorem Spends.trans {w'' : Walk} {m n : Nat} (h : Spends g m w w') (h' : Spends g n w' w'') :
    Spends g (m + n) w w'' := by
  obtain ⟨htried, haccepted, hentered⟩ := h
  obtain ⟨htried', haccepted', hentered'⟩ := h'
  exact ⟨by omega, by omega, by omega⟩

/-- An offer counts nothing itself. -/
theorem stats_offer (g : Graph) (skip : Bool) (p : Pass) (r : EdgeRef) :
    (offer g skip p r).pass.stats = p.stats := by
  rw [offer_eq]
  cases (judge g skip p.state r).taken with
  | none => rfl
  | some place => exact Pass.stats_setTemporary ..

private theorem tryEdge_spends (root : Nat) {next : VarnodeId → Walk → Walk}
    (hnext : ∀ v w, Spends g (edges g v).length w (next v w)) (w : Walk) (r : EdgeRef) :
    Spends g 1 w (tryEdge g skip root next w r) := by
  have hstats := stats_offer g skip w.pass.countTried r
  rw [tryEdge]
  generalize offer g skip w.pass.countTried r = result at hstats ⊢
  have htried : result.pass.stats.edgesTried = w.pass.stats.edgesTried + 1 :=
    congrArg Stats.edgesTried hstats
  have haccepted : result.pass.stats.edgesAccepted = w.pass.stats.edgesAccepted := by
    rw [hstats]
    rfl
  have hentered : result.pass.stats.valuesEntered = w.pass.stats.valuesEntered := by
    rw [hstats]
    rfl
  have hkept : Spends g 1 w { w with pass := result.pass.countAccepted } := by
    refine ⟨?_, ?_, ?_⟩ <;> dsimp only [Pass.countAccepted] <;> omega
  dsimp only
  split
  · split
    · exact hkept
    · rename_i dest hdest
      split
      · exact hkept
      · -- the edges of the value that is entered pay for what is tried from it
        have hlater := hnext dest ⟨result.pass.countAccepted.enter root dest, dest :: w.visited⟩
        generalize next dest ⟨result.pass.countAccepted.enter root dest, dest :: w.visited⟩ = last
          at hlater ⊢
        have hpaid : edgesFrom g (dest :: w.visited) =
            (edges g dest).length + edgesFrom g w.visited := by simp [edgesFrom]
        obtain ⟨hmore, hmore', hmore''⟩ := hlater
        dsimp only [Pass.countAccepted, Pass.enter] at hmore hmore' hmore''
        rw [hpaid] at hmore
        rw [List.length_cons] at hmore''
        exact ⟨by omega, by omega, by omega⟩
  · refine ⟨?_, ?_, ?_⟩ <;> dsimp only <;> omega

private theorem tryEdge_foldl_spends (root : Nat) {next : VarnodeId → Walk → Walk}
    (hnext : ∀ v w, Spends g (edges g v).length w (next v w)) (todo : List EdgeRef) (w : Walk) :
    Spends g todo.length w (todo.foldl (tryEdge g skip root next) w) := by
  induction todo generalizing w with
  | nil => exact .refl 0 w
  | cons r rest ih =>
    rw [List.foldl_cons, List.length_cons, Nat.add_comm]
    exact (tryEdge_spends root hnext w r).trans (ih _)

/-- A walk tries each edge of a value once for each time it enters it. -/
theorem explore_spends (g : Graph) (skip : Bool) (root depth : Nat) (v : Nat) (w : Walk) :
    Spends g (edges g v).length w (explore g skip root depth v w) := by
  induction depth generalizing v w with
  | zero => exact .refl _ w
  | succ depth ih => exact tryEdge_foldl_spends root ih (edges g v) w

/-- Distinct values have no more edges than all values. -/
theorem edgesFrom_le {values : List VarnodeId} (hnodup : values.Nodup)
    (h : ∀ v ∈ values, v < g.varnodes.size) : edgesFrom g values ≤ edgeCount g := by
  have hsub : values.Subperm (List.range g.varnodes.size) :=
    List.subperm_of_subset hnodup fun v hv => List.mem_range.mpr (h v hv)
  obtain ⟨part, hperm, hpart⟩ := hsub
  rw [edgesFrom, ← (hperm.map fun v => (edges g v).length).sum_nat]
  exact (hpart.map _).sum_le_sum fun _ _ => Nat.zero_le _

/-! ## Rounds -/

/-- What the counters of a pass can be after `traversals` traversals. -/
structure Traverses (g : Graph) (traversals : Nat) (p q : Pass) : Prop where
  /-- Each traversal tries every edge at most once. -/
  tried : q.stats.edgesTried ≤ p.stats.edgesTried + traversals * edgeCount g
  /-- Types are taken along edges that are tried. -/
  accepted : q.stats.edgesAccepted + p.stats.edgesTried ≤
    p.stats.edgesAccepted + q.stats.edgesTried
  /-- Each traversal enters every value at most once. -/
  entered : q.stats.valuesEntered ≤ p.stats.valuesEntered + traversals * g.varnodes.size

/-- What counts nothing takes no traversals. -/
theorem Traverses.of_eq (traversals : Nat) (h : q.stats = p.stats) :
    Traverses g traversals p q := by
  refine ⟨?_, ?_, ?_⟩ <;> rw [h]
  · exact Nat.le_add_right _ _
  · exact Nat.le_add_right _ _

/-- Traversals add up. -/
theorem Traverses.trans {x : Pass} {m n : Nat} (h : Traverses g m p q) (h' : Traverses g n q x) :
    Traverses g (m + n) p x := by
  obtain ⟨htried, haccepted, hentered⟩ := h
  obtain ⟨htried', haccepted', hentered'⟩ := h'
  refine ⟨?_, by omega, ?_⟩
  · rw [Nat.add_mul]
    omega
  · rw [Nat.add_mul]
    omega

/-- Fewer traversals are within a larger number of them. -/
theorem Traverses.mono {m n : Nat} (h : Traverses g m p q) (hmn : m ≤ n) : Traverses g n p q := by
  refine ⟨h.tried.trans ?_, h.accepted, h.entered.trans ?_⟩
  · exact Nat.add_le_add_left (Nat.mul_le_mul_right _ hmn) _
  · exact Nat.add_le_add_left (Nat.mul_le_mul_right _ hmn) _

/-- A fold over states that hold a pass, each step of which runs at most `n` traversals. -/
theorem foldl_traverses {α σ : Type} (pass : σ → Pass) {f : σ → α → σ} {n : Nat} {l : List α}
    (h : ∀ a, ∀ x ∈ l, Traverses g n (pass a) (pass (f a x))) (a : σ) :
    Traverses g (l.length * n) (pass a) (pass (l.foldl f a)) := by
  induction l generalizing a with
  | nil => exact .of_eq _ rfl
  | cons x rest ih =>
    have hhead := h a x List.mem_cons_self
    have htail := ih (fun a y hy => h a y (List.mem_cons_of_mem x hy)) (f a x)
    rw [List.foldl_cons, List.length_cons, Nat.succ_mul, Nat.add_comm]
    exact hhead.trans htail

/-- Pushing a type is one traversal. -/
theorem propagate_traverses (skip : Bool) (hg : g.WellFormed) (p : Pass) {root : Nat}
    (hroot : root < g.varnodes.size) : Traverses g 1 p (propagate g skip p root) := by
  have hfits : Fits g g.varnodes.size
      (explore g skip root g.varnodes.size root ⟨p.enter root root, [root]⟩) := by
    obtain ⟨-, -, -, -, hfits⟩ := explore_trace hg root _ root (.start hroot (p.enter root root))
    exact hfits
  obtain ⟨htried, haccepted, hentered⟩ := explore_spends g skip root g.varnodes.size root
    ⟨p.enter root root, [root]⟩
  have hedges := edgesFrom_le hfits.nodup hfits.exist
  have hvalues : (explore g skip root g.varnodes.size root
      ⟨p.enter root root, [root]⟩).visited.length ≤ g.varnodes.size := by
    have hsub := List.subperm_of_subset hfits.nodup
      fun v hv => List.mem_range.mpr (hfits.exist v hv)
    simpa using hsub.length_le
  have hroot : edgesFrom g [root] = (edges g root).length := by simp [edgesFrom]
  rw [propagate]
  dsimp only [Pass.enter] at *
  rw [hroot] at htried
  rw [List.length_singleton] at hentered
  exact ⟨by omega, by omega, by omega⟩

/-- The first guesses take no traversal. -/
theorem seedAll_traverses (g : Graph) (p : Pass) : Traverses g 0 p (seedAll g p) := by
  have h := foldl_traverses id (g := g) (n := 0) (l := g.observables)
    (fun q v _ => .of_eq 0 (stats_seedValue g q v)) p
  rw [Nat.mul_zero] at h
  exact h

/-- Pushing all types takes one traversal for each observable value. -/
theorem propagateAll_traverses (skip : Bool) (hg : g.WellFormed) (p : Pass) :
    Traverses g g.observables.length p (propagateAll g skip p) := by
  have h := foldl_traverses id (n := 1) (f := propagate g skip) (fun q v hv =>
    propagate_traverses skip hg q (Graph.WellFormed.lt_of_observable (hg.mem_observables.mp hv))) p
  rw [Nat.mul_one] at h
  exact h

/-- A type is given to a value and pushed on. -/
theorem propagate_setTemporary_traverses (skip : Bool) (hg : g.WellFormed) (p : Pass) {v : Nat}
    (hv : v < g.varnodes.size) (t : Nat) (cause : Cause) :
    Traverses g 1 p (propagate g skip (p.setTemporary v t cause) v) := by
  have hset : Traverses g 0 p (p.setTemporary v t cause) :=
    .of_eq 0 (p.stats_setTemporary v t cause)
  exact hset.trans (propagate_traverses skip hg _ hv)

private theorem unifyReturn_traverses (skip : Bool) (hg : g.WellFormed) (t size : Nat) (p : Pass)
    {v : Nat} (hv : v ∈ returnedValues g) : Traverses g 1 p (unifyReturn g skip t size p v) := by
  obtain ⟨o, -, hin⟩ := mem_inputs_of_mem_returnedValues hv
  rw [unifyReturn]
  split
  · exact .of_eq 1 rfl
  · split
    · exact .of_eq 1 rfl
    · split
      · exact .of_eq 1 rfl
      · exact propagate_setTemporary_traverses skip hg p (hg.lt_of_mem_inputs hin) t _

/-- Unifying returned values takes at most one traversal for each of them. -/
theorem unifyReturns_traverses (skip : Bool) (hg : g.WellFormed) (p : Pass) :
    Traverses g (returnedValues g).length p (unifyReturns g skip p) := by
  rw [unifyReturns]
  split
  · exact .of_eq _ rfl
  · split
    · exact .of_eq _ rfl
    · rename_i canonical b _
      have h := foldl_traverses id (n := 1) (l := (returnedValues g).eraseIdx canonical)
        (fun q v hv => unifyReturn_traverses skip hg (p.state.temporary b) (g.varnode b).size q
          (List.mem_of_mem_eraseIdx hv)) p
      rw [Nat.mul_one] at h
      exact h.mono (List.length_eraseIdx_le _ _)

private theorem aliasNext_traverses (skip : Bool) (hg : g.WellFormed) (start : UInt64)
    (pointee : Nat) (a : Aliasing) (v : Nat) :
    Traverses g 1 a.pass (aliasNext g skip start pointee a v).pass := by
  rw [aliasNext]
  dsimp only
  split
  · exact .of_eq 1 rfl
  · rename_i hfree
    simp only [Bool.or_eq_true, Bool.not_eq_true', not_or, Bool.not_eq_false] at hfree
    split
    · exact .of_eq 1 rfl
    · split
      · exact .of_eq 1 rfl
      · split
        · exact propagate_setTemporary_traverses skip hg a.pass
            (Graph.WellFormed.lt_of_observable hfree.1.1) _ _
        · exact .of_eq 1 rfl

/-- A reference into the frame takes at most one traversal for each value. -/
theorem aliasReference_traverses (skip : Bool) (hg : g.WellFormed) (p : Pass)
    (reference : VarnodeId × UInt64) :
    Traverses g g.locations.length p (aliasReference g skip p reference) := by
  rw [aliasReference]
  split
  · exact .of_eq _ rfl
  · rename_i pointee _
    dsimp only
    split
    · exact .of_eq _ rfl
    · have h := foldl_traverses Aliasing.pass (n := 1)
        (l := coveredValues g reference.2 (p.state.types.size pointee))
        (fun a v _ => aliasNext_traverses skip hg reference.2 pointee a v)
        ⟨p, ⟨0, p.state.types.size pointee, some pointee⟩⟩
      rw [Nat.mul_one] at h
      refine h.mono ?_
      obtain ⟨l, hl, heq⟩ := g.exists_sublist_valuesInRange g.stack reference.2 _
      rw [coveredValues, heq, List.length_map]
      exact hl.length_le

/-- The references together take at most one traversal for each pair of a reference and a value. -/
theorem aliasFrame_traverses (skip : Bool) (hg : g.WellFormed) (p : Pass) :
    Traverses g (referenceCount g * g.locations.length) p (aliasFrame g skip p) := by
  rw [aliasFrame, referenceCount]
  cases g.spaceBase with
  | none => exact .of_eq _ rfl
  | some base =>
    dsimp only
    split
    · exact foldl_traverses id (fun q reference _ => aliasReference_traverses skip hg q reference) p
    · exact .of_eq _ rfl

/-- A round takes a bounded number of traversals. -/
theorem recover_traverses (c : Config) (hg : g.WellFormed) (s : TypeState) :
    Traverses g (traversalLimit g) { state := s } (recover c g s) := by
  have hpushed := (seedAll_traverses g { state := s }).trans
    (propagateAll_traverses (skipsMerges c g) hg (seedAll g { state := s }))
  rw [Nat.zero_add] at hpushed
  have hunified (p : Pass) : Traverses g (returnedValues g).length p
      (if c.propagateAcrossReturns then unifyReturns g (skipsMerges c g) p else p) := by
    split
    · exact unifyReturns_traverses _ hg p
    · exact .of_eq _ rfl
  have haliased (p : Pass) : Traverses g (referenceCount g * g.locations.length) p
      (if c.propagateSpacebase then aliasFrame g (skipsMerges c g) p else p) := by
    split
    · exact aliasFrame_traverses _ hg p
    · exact .of_eq _ rfl
  exact (hpushed.trans (hunified _)).trans (haliased _)

/-- The counters of a round are bounded by the size of the graph. -/
structure Bounded (g : Graph) (x : Stats) : Prop where
  /-- Each traversal tries every edge at most once. -/
  tried : x.edgesTried ≤ traversalLimit g * edgeCount g
  /-- Types are taken along edges that are tried. -/
  accepted : x.edgesAccepted ≤ x.edgesTried
  /-- Each traversal enters every value at most once. -/
  entered : x.valuesEntered ≤ traversalLimit g * g.varnodes.size

/-- The counters of a round are bounded. -/
theorem bounded_recover (c : Config) (hg : g.WellFormed) (s : TypeState) :
    Bounded g (recover c g s).stats := by
  obtain ⟨htried, haccepted, hentered⟩ := recover_traverses c hg s
  dsimp only at htried haccepted hentered
  exact ⟨by omega, by omega, by omega⟩

end Recovery

namespace Routine

open Recovery

variable {r : Routine}

/-- A call keeps the counters bounded. -/
theorem WellFormed.bounded_apply (hr : r.WellFormed) (h : Bounded r.graph r.progress.stats)
    (c : Config) : Bounded r.graph (r.apply c).routine.progress.stats := by
  rw [Routine.apply]
  split
  · exact h
  · split
    · exact h
    · split
      · exact h
      · have hround := bounded_recover c hr.graph r.recommended
        rw [Routine.runRound]
        dsimp only
        split
        · exact hround
        · exact hround

/-- After any sequence of calls the counters are those of the latest round, or none. -/
theorem WellFormed.bounded_calls (hr : r.WellFormed) (h : Bounded r.graph r.progress.stats)
    (sequence : List Call) : Bounded r.graph (r.calls sequence).progress.stats := by
  induction sequence generalizing r with
  | nil => exact h
  | cons a rest ih =>
    have hgraph := r.graph_call a
    rw [Routine.calls, List.foldl_cons, ← hgraph]
    refine ih (hr.call a) ?_
    rw [hgraph]
    cases a with
    | apply c => exact hr.bounded_apply h c
    | reset => exact ⟨Nat.zero_le _, Nat.le_refl 0, Nat.zero_le _⟩

end Routine

end TypeRecovery
