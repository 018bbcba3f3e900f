import Mathlib.Algebra.Order.Ring.Nat
import Mathlib.Data.List.Nodup
import Mathlib.Logic.Relation
import TypeRecovery.Proofs.Recovery.Counters
import TypeRecovery.Proofs.Recovery.Monotone

/-!
# What a traversal does

A traversal can be run as a loop over a stack of frames, one for each value that was entered and
whose edges are not all tried yet. The loop has no bound of its own. It ends because no value is
entered twice, and it ends where the recursion over the values ends. What is tried and what is
still to be tried together are, at each moment, all edges of the values entered, so that in the end
each of them was tried once, in the order in which they leave their value.
-/

namespace TypeRecovery

namespace Recovery

open TypeTable TypeState

/-! ## The loop -/

/-- A value with its edges that are not tried yet. -/
structure Frame where
  /-- The value. -/
  value : VarnodeId
  /-- The edges that are left. -/
  untried : List EdgeRef

/-- A traversal under way. -/
structure Traversal where
  /-- The pass and the values entered. -/
  walk : Walk
  /-- The frames, the latest first. -/
  stack : List Frame
  /-- The edges tried so far and the values they were tried from, the oldest first. -/
  tried : List (VarnodeId × EdgeRef)

/-- The edges that were tried from a value. -/
def leaving (v : VarnodeId) (tried : List (VarnodeId × EdgeRef)) : List EdgeRef :=
  (tried.filter (·.1 = v)).map (·.2)

namespace Traversal

/-- A traversal enters its root. -/
def start (g : Graph) (p : Pass) (root : VarnodeId) : Traversal :=
  ⟨⟨p.enter root root, [root]⟩, [⟨root, edges g root⟩], []⟩

/-- One turn of the loop: leave the latest frame if its edges are tried, or else try the next one.
The loop is over when no frame is left. -/
def step (g : Graph) (skip : Bool) (root : VarnodeId) (t : Traversal) : Option Traversal :=
  match t.stack with
  | [] => none
  | ⟨_, []⟩ :: outer => some { t with stack := outer }
  | ⟨v, r :: rest⟩ :: outer =>
    let result := offer g skip t.walk.pass.countTried r
    let stack := ⟨v, rest⟩ :: outer
    let tried := t.tried ++ [(v, r)]
    if result.taken then
      let p := result.pass.countAccepted
      match (g.op r.op).at? r.outSlot with
      | none => some ⟨{ t.walk with pass := p }, stack, tried⟩
      | some dest =>
        if dest ∈ t.walk.visited then some ⟨{ t.walk with pass := p }, stack, tried⟩
        else
          some ⟨⟨p.enter root dest, dest :: t.walk.visited⟩, ⟨dest, edges g dest⟩ :: stack, tried⟩
    else some ⟨{ t.walk with pass := result.pass }, stack, tried⟩

/-- Any number of turns of the loop. -/
def Steps (g : Graph) (skip : Bool) (root : VarnodeId) : Traversal → Traversal → Prop :=
  Relation.ReflTransGen fun t t' => t.step g skip root = some t'

/-- The edges that are left, in the order in which they would be tried. -/
def pending (t : Traversal) : List (VarnodeId × EdgeRef) :=
  t.stack.flatMap fun f => f.untried.map (f.value, ·)

end Traversal

open Traversal

variable {g : Graph} {skip : Bool} {root : Nat} {p q : Pass} {w : Walk} {t t' : Traversal}
  {v : Nat} {r : EdgeRef} {rest : List EdgeRef} {outer : List Frame}
  {log : List (VarnodeId × EdgeRef)}

/-- A turn of the loop that tries an edge. -/
theorem step_try (g : Graph) (skip : Bool) (root v : Nat) (w : Walk) (r : EdgeRef)
    (rest : List EdgeRef) (outer : List Frame) (tried : List (VarnodeId × EdgeRef)) :
    step g skip root ⟨w, ⟨v, r :: rest⟩ :: outer, tried⟩ =
      match (judge g skip w.pass.state r).taken with
      | none => some ⟨{ w with pass := act g skip w.pass (.offered r) }, ⟨v, rest⟩ :: outer,
          tried ++ [(v, r)]⟩
      | some (dest, _) =>
        if dest ∈ w.visited then
          some ⟨{ w with pass := act g skip w.pass (.offered r) }, ⟨v, rest⟩ :: outer,
            tried ++ [(v, r)]⟩
        else
          some ⟨⟨(act g skip w.pass (.offered r)).enter root dest, dest :: w.visited⟩,
            ⟨dest, edges g dest⟩ :: ⟨v, rest⟩ :: outer, tried ++ [(v, r)]⟩ := by
  have hstate : w.pass.countTried.state = w.pass.state := rfl
  simp only [step, act, offer_eq, hstate]
  cases ht : (judge g skip w.pass.state r).taken with
  | none => rfl
  | some taken => simp [slot_of_judge ht]

/-- The loop works off the edges of a frame as the recursion does, if it does so for the values
that are entered on the way. -/
theorem steps_foldl (hg : g.WellFormed) {depth : Nat}
    (hnext : ∀ v w outer tried, Fits g depth w → ∃ tried', Steps g skip root
      ⟨w, ⟨v, edges g v⟩ :: outer, tried⟩ ⟨explore g skip root depth v w, outer, tried'⟩)
    (todo : List EdgeRef) (v : Nat) (outer : List Frame) (tried : List (VarnodeId × EdgeRef))
    (hw : Fits g (depth + 1) w) :
    ∃ tried', Steps g skip root ⟨w, ⟨v, todo⟩ :: outer, tried⟩
      ⟨todo.foldl (tryEdge g skip root (explore g skip root depth)) w, outer, tried'⟩ := by
  induction todo generalizing w tried with
  | nil => exact ⟨tried, .single rfl⟩
  | cons r rest ih =>
    obtain ⟨-, -, -, -, hafter⟩ :=
      @tryEdge_trace g skip root hg depth _ (fun v _ => explore_trace hg root depth v) w hw r
    have htry := step_try g skip root v w r rest outer tried
    rw [List.foldl_cons]
    rw [tryEdge_eq] at hafter ⊢
    cases ht : (judge g skip w.pass.state r).taken with
    | none =>
      rw [ht] at htry hafter
      obtain ⟨tried', hrest⟩ := ih (tried ++ [(v, r)]) hafter
      exact ⟨tried', .head htry hrest⟩
    | some taken =>
      rw [ht] at htry hafter
      dsimp only at htry hafter ⊢
      by_cases hmem : taken.1 ∈ w.visited
      · rw [if_pos hmem] at htry hafter ⊢
        obtain ⟨tried', hrest⟩ := ih (tried ++ [(v, r)]) hafter
        exact ⟨tried', .head htry hrest⟩
      · rw [if_neg hmem] at htry hafter ⊢
        -- the frame of the value that is entered is worked off first
        obtain ⟨mid, hinner⟩ := hnext taken.1 _ (⟨v, rest⟩ :: outer) (tried ++ [(v, r)])
          (hw.enter hg (slot_of_judge ht) hmem
            ((act g skip w.pass (.offered r)).enter root taken.1))
        obtain ⟨tried', hrest⟩ := ih mid hafter
        exact ⟨tried', .head htry (Relation.ReflTransGen.trans hinner hrest)⟩

/-- Exploring a value works off the edges of the value step by step. -/
theorem steps_explore (skip : Bool) (root : Nat) (hg : g.WellFormed) (depth : Nat) (v : Nat)
    (w : Walk) (outer : List Frame) (tried : List (VarnodeId × EdgeRef)) (hw : Fits g depth w) :
    ∃ tried', Steps g skip root ⟨w, ⟨v, edges g v⟩ :: outer, tried⟩
      ⟨explore g skip root depth v w, outer, tried'⟩ := by
  induction depth generalizing v w outer tried with
  | zero => exact absurd hw.pos (Nat.lt_irrefl 0)
  | succ depth ih => exact steps_foldl hg ih (edges g v) v outer tried hw

/-- The loop ends after finitely many turns, and with the pass of the recursion. -/
theorem steps_propagate (skip : Bool) (hg : g.WellFormed) (p : Pass)
    (hroot : root < g.varnodes.size) :
    ∃ last, Steps g skip root (start g p root) last ∧ last.stack = [] ∧
      last.walk.pass = propagate g skip p root := by
  obtain ⟨tried, hsteps⟩ := steps_explore skip root hg g.varnodes.size root
    ⟨p.enter root root, [root]⟩ [] [] (.start hroot _)
  exact ⟨_, hsteps, rfl, rfl⟩

/-! ## The plan of a traversal -/

/-- What was tried and what is left are the edges of the values entered, each as often and, for one
value, in the order in which it has them. -/
structure Planned (g : Graph) (t : Traversal) : Prop where
  /-- The edges of each value. -/
  each : ∀ v, leaving v (t.tried ++ t.pending) =
    if v ∈ t.walk.visited then edges g v else []
  /-- Their number. -/
  total : t.tried.length + t.pending.length = edgesFrom g t.walk.visited

private theorem leaving_append (v : Nat) (l l' : List (VarnodeId × EdgeRef)) :
    leaving v (l ++ l') = leaving v l ++ leaving v l' := by
  simp [leaving]

private theorem leaving_tagged (v u : Nat) (l : List EdgeRef) :
    leaving v (l.map (u, ·)) = if u = v then l else [] := by
  induction l with
  | nil => simp [leaving]
  | cons r rest ih =>
    rw [List.map_cons, ← List.singleton_append, leaving_append, ih]
    by_cases h : u = v <;> simp [leaving, h]

/-- When a traversal starts, the edges of its root are planned. -/
theorem planned_start (g : Graph) (p : Pass) (root : Nat) : Planned g (start g p root) where
  each v := by
    simp only [start, pending, List.nil_append, List.flatMap_cons, List.flatMap_nil,
      List.append_nil, leaving_tagged, List.mem_singleton]
    by_cases h : root = v
    · simp [h]
    · simp [h, Ne.symm h]
  total := by simp [start, pending, edgesFrom]

/-- Trying an edge moves it from what is left to what was tried. -/
theorem Planned.tried (h : Planned g ⟨w, ⟨v, r :: rest⟩ :: outer, log⟩) (q : Pass) :
    Planned g ⟨{ w with pass := q }, ⟨v, rest⟩ :: outer, log ++ [(v, r)]⟩ where
  each u := by simpa [pending] using h.each u
  total := by
    have hlength := h.total
    simp only [pending, List.flatMap_cons, List.map_cons, List.length_append, List.length_cons,
      List.length_nil] at hlength ⊢
    omega

/-- The edges of a value that is entered come before all that are left. -/
theorem Planned.entered (h : Planned g ⟨w, outer, log⟩) (q : Pass) (hnew : v ∉ w.visited) :
    Planned g ⟨⟨q, v :: w.visited⟩, ⟨v, edges g v⟩ :: outer, log⟩ where
  each u := by
    have hedges := h.each u
    simp only [pending, List.flatMap_cons, leaving_append, leaving_tagged] at hedges ⊢
    by_cases hu : v = u
    · subst hu
      rw [if_neg hnew, List.append_eq_nil_iff] at hedges
      simp [hedges]
    · rw [if_neg hu, List.nil_append, hedges]
      simp [Ne.symm hu]
  total := by
    have hlength := h.total
    simp only [pending, edgesFrom, List.flatMap_cons, List.map_cons, List.sum_cons,
      List.length_append, List.length_map] at hlength ⊢
    omega

/-- Distinct readers have distinct edges. -/
theorem nodup_edges (h : (g.varnode v).readers.Nodup) : (edges g v).Nodup := by
  have hinputs : ∀ (o : OpId) slot, (edgesToInputs g o slot).Nodup := by
    intro o slot
    refine List.nodup_range.map fun i j hij => ?_
    simpa using hij
  have hop : ∀ o, ∀ r ∈ readerEdges g v o, r.op = o ∧ r.inSlot ≠ .output := by
    intro o r hr
    rw [readerEdges] at hr
    cases hslot : (g.op o).slotOf? v with
    | none => simp [hslot] at hr
    | some index =>
      simp only [hslot, edgesToInputs, List.mem_append, List.mem_map] at hr
      rcases hr with hr | ⟨i, -, rfl⟩
      · split at hr
        · simp_all
        · cases hr
      · simp
  have hreader : ∀ o, (readerEdges g v o).Nodup := by
    intro o
    rw [readerEdges]
    split
    · exact List.nodup_nil
    · refine List.Nodup.append ?_ (hinputs o _) ?_
      · split <;> simp
      · intro r hr hr'
        simp only [edgesToInputs, List.mem_map] at hr'
        obtain ⟨i, -, rfl⟩ := hr'
        split at hr <;> simp at hr
  rw [edges]
  refine List.Nodup.append (List.nodup_flatMap.mpr ⟨fun o _ => hreader o, ?_⟩) ?_ ?_
  · refine h.imp fun hne => ?_
    intro r hr hr'
    exact hne ((hop _ r hr).1.symm.trans (hop _ r hr').1)
  · cases (g.varnode v).definition with
    | none => exact List.nodup_nil
    | some o => exact hinputs o .output
  · intro r hr hr'
    obtain ⟨o, -, hmem⟩ := List.mem_flatMap.mp hr
    cases hdef : (g.varnode v).definition with
    | none => simp [hdef] at hr'
    | some d =>
      simp only [hdef, Option.elim_some, edgesToInputs, List.mem_map] at hr'
      obtain ⟨i, -, rfl⟩ := hr'
      exact (hop o _ hmem).2 rfl

/-- If the edges from each value are distinct, all are. -/
theorem nodup_of_leaving (h : ∀ v, (leaving v log).Nodup) : log.Nodup := by
  rw [List.nodup_iff_sublist]
  rintro ⟨v, r⟩ hsub
  refine List.nodup_iff_sublist.mp (h v) r ?_
  simpa [leaving] using (hsub.filter (·.1 = v)).map (·.2)

/-! ## The record of a traversal -/

/-- The traversal and the value of each entry. -/
def entries (events : List Event) : List (VarnodeId × VarnodeId) :=
  events.filterMap fun
    | .entered root v => some (root, v)
    | _ => none

/-- The value of each change along an edge. -/
def takers (events : List Event) : List VarnodeId :=
  events.filterMap fun
    | .changed v _ _ (.edge ..) => some v
    | _ => none

section Events

variable (events : List Event) (v old new o : Nat) (i j : Slot)

@[simp] theorem entries_entered :
    entries (events ++ [.entered root v]) = entries events ++ [(root, v)] := by
  simp [entries]

@[simp] theorem entries_changed (cause : Cause) :
    entries (events ++ [.changed v old new cause]) = entries events := by
  simp [entries]

@[simp] theorem takers_entered : takers (events ++ [.entered root v]) = takers events := by
  simp [takers]

@[simp] theorem takers_changed :
    takers (events ++ [.changed v old new (.edge o i j)]) = takers events ++ [v] := by
  simp [takers]

end Events

/-- What the events since a pass say about the types: along edges more specific types are taken,
and there is no other change. -/
structure Records (p q : Pass) (news : List Event) : Prop where
  /-- The types that values hold exist. -/
  valid : q.state.Valid
  /-- Types are only added. -/
  later : p.state.Later q.state
  /-- The events since then. -/
  events : q.events.toList = p.events.toList ++ news
  /-- Each change is counted. -/
  accepted : q.stats.edgesAccepted = p.stats.edgesAccepted + (takers news).length
  /-- Changed types are more specific. -/
  lower : ∀ v ∈ takers news,
    q.state.types.order (q.state.temporary v) (p.state.temporary v) = .lt
  /-- Other types are the same. -/
  same : ∀ v, v ∉ takers news → q.state.temporary v = p.state.temporary v

section Records

variable {first : Pass} {news : List Event}

/-- Nothing is recorded at first. -/
theorem Records.refl (hp : p.state.Valid) : Records p p [] :=
  ⟨hp, .refl _, by simp, by simp [takers], by simp [takers], by simp [takers]⟩

/-- Entering a value is recorded. -/
theorem Records.enter (h : Records first p news) (root v : Nat) :
    Records first (p.enter root v) (news ++ [.entered root v]) where
  valid := h.valid
  later := h.later
  events := by simp [Pass.enter, h.events]
  accepted := by
    rw [takers_entered]
    exact h.accepted
  lower u hu := by
    rw [takers_entered] at hu
    exact h.lower u hu
  same u hu := by
    rw [takers_entered] at hu
    exact h.same u hu

/-- The types that were compared are still ordered in the same way later. -/
theorem Records.order (h : Records first p news) (hfirst : first.state.Valid) {s : TypeState}
    (hs : p.state.Later s) (v : Nat) :
    s.types.order (p.state.temporary v) (first.state.temporary v) =
      p.state.types.order (p.state.temporary v) (first.state.temporary v) :=
  hs.types.extends.order h.valid.types (h.valid.temporary v)
    (h.later.types.extends.has (hfirst.temporary v))

/-- An offer that is not taken is no event. -/
theorem Records.refused (h : Records first p news) (hfirst : first.state.Valid)
    (hnone : (judge g skip p.state r).taken = none) :
    Records first (act g skip p (.offered r)) news := by
  have hquiet : Quiet p (act g skip p (.offered r)) (.offered r) := by
    rcases act_offered g skip h.valid r with ⟨-, hquiet, -⟩ | ⟨v, t, hsome, -⟩
    · exact hquiet
    · simp [hnone] at hsome
  have hlater := hquiet.learns.later
  refine ⟨hquiet.learns.valid h.valid, h.later.trans hlater, ?_, ?_, ?_, ?_⟩
  · rw [hquiet.events]
    exact h.events
  · rw [← h.accepted, act, offer_eq]
    simp [hnone, Pass.countTried]
  · intro v hv
    rw [hquiet.learns.temporary, h.order hfirst hlater]
    exact h.lower v hv
  · intro v hv
    rw [hquiet.learns.temporary]
    exact h.same v hv

/-- An offer that is taken is a change along its edge. -/
theorem Records.taken (h : Records first p news) (hfirst : first.state.Valid) {dest t : Nat}
    (hsome : (judge g skip p.state r).taken = some (dest, t)) (hdest : dest < p.state.values.size) :
    Records first (act g skip p (.offered r))
      (news ++ [.changed dest (p.state.temporary dest) t (.edge r.op r.inSlot r.outSlot)]) := by
  have hwrites : Writes g p (act g skip p (.offered r)) (.offered r) dest t
      (.edge r.op r.inSlot r.outSlot) := by
    rcases act_offered g skip h.valid r with ⟨hnone, -⟩ | ⟨v, t', htaken, -, hwrites⟩
    · simp [hnone] at hsome
    · cases htaken.symm.trans hsome
      exact hwrites
  have henabled : (Action.offered r).Enabled g p := trivial
  have hlater := act_later skip h.valid henabled
  have hnow := hwrites.temporary hdest
  have hother : ∀ v ≠ dest,
      (act g skip p (.offered r)).state.temporary v = p.state.temporary v := by
    intro v hv
    obtain ⟨s, hs, hstate⟩ := hwrites.state
    rw [hstate, temporary_setTemporary_ne hv, hs.temporary]
  refine ⟨act_valid skip h.valid henabled, h.later.trans hlater, ?_, ?_, ?_, ?_⟩
  · rw [hwrites.events, Array.toList_push, h.events, List.append_assoc]
  · rw [takers_changed, List.length_append, ← Nat.add_assoc, ← h.accepted, act, offer_eq]
    simp [hsome, Pass.countTried, Pass.countAccepted]
  · intro v hv
    rw [takers_changed] at hv
    have horder := h.order hfirst hlater v
    by_cases hvd : v = dest
    · subst hvd
      have hstep := hwrites.order Cause.noConfusion
      rw [hnow]
      by_cases hold : v ∈ takers news
      · exact Std.TransCmp.lt_trans hstep (horder.trans (h.lower v hold))
      · rw [← h.same v hold]
        exact hstep
    · rw [hother v hvd, horder]
      exact h.lower v (by simpa [hvd] using hv)
  · intro v hv
    rw [takers_changed, List.mem_append, List.mem_singleton, not_or] at hv
    rw [hother v hv.2, h.same v hv.1]

/-- A value took a type since then exactly if its type is another one. -/
theorem Records.mem_takers_iff (h : Records first p news) (v : Nat) :
    v ∈ takers news ↔ p.state.temporary v ≠ first.state.temporary v := by
  constructor
  · intro hv
    exact ne_of_order_lt (h.lower v hv)
  · intro hne
    by_contra hv
    exact hne (h.same v hv)

end Records

/-! ## Whole traversals -/

/-- What holds during a traversal, given the pass from which it started and the events since then.
A value that just took a type may be due to be entered. -/
structure Tracks (g : Graph) (root : VarnodeId) (first : Pass) (due : Option VarnodeId)
    (t : Traversal) (news : List Event) : Prop where
  /-- The events say which types changed. -/
  records : Records first t.walk.pass news
  /-- The edges of the values entered are tried or left. -/
  planned : Planned g t
  /-- No value was entered twice. -/
  nodup : t.walk.visited.Nodup
  /-- The root was entered first. -/
  head : t.walk.visited.reverse.head? = some root
  /-- Entering a value is an event. -/
  noted : entries news = t.walk.visited.reverse.map (root, ·)
  /-- The values entered are the root and those that took a type. -/
  entered : ∀ v, v ∈ t.walk.visited ∨ v ∈ due ↔ v = root ∨ v ∈ takers news
  /-- The tries are counted. -/
  tries : t.walk.pass.stats.edgesTried = first.stats.edgesTried + t.tried.length
  /-- The entries are counted. -/
  values : t.walk.pass.stats.valuesEntered =
    first.stats.valuesEntered + t.walk.visited.length

/-- An offer counts as an edge that was tried, and not as a value that was entered. -/
theorem stats_act_offered (g : Graph) (skip : Bool) (p : Pass) (r : EdgeRef) :
    (act g skip p (.offered r)).stats.edgesTried = p.stats.edgesTried + 1 ∧
      (act g skip p (.offered r)).stats.valuesEntered = p.stats.valuesEntered := by
  have hstats := stats_offer g skip p.countTried r
  rw [act]
  split
  · simp only [Pass.countAccepted, hstats]
    exact ⟨rfl, rfl⟩
  · rw [hstats]
    exact ⟨rfl, rfl⟩

section Tracks

variable {first : Pass} {news : List Event}

/-- A traversal is tracked from its start. -/
theorem tracks_start (hp : p.state.Valid) (root : Nat) :
    Tracks g root p none (start g p root) [.entered root root] where
  records := (Records.refl hp).enter root root
  planned := planned_start g p root
  nodup := List.nodup_singleton root
  head := rfl
  noted := rfl
  entered v := by simp [start, takers]
  tries := rfl
  values := rfl

/-- An edge is tried, and the value that takes its type is due. -/
theorem Tracks.offered (skip : Bool)
    (h : Tracks g root first none ⟨w, ⟨v, r :: rest⟩ :: outer, log⟩ news)
    (hg : g.WellFormed) (hfirst : first.state.Valid)
    (hsize : first.state.values.size = g.varnodes.size) :
    ∃ news', Tracks g root first ((judge g skip w.pass.state r).taken.map (·.1))
      ⟨{ w with pass := act g skip w.pass (.offered r) }, ⟨v, rest⟩ :: outer, log ++ [(v, r)]⟩
      news' := by
  obtain ⟨htried, hvalues⟩ := stats_act_offered g skip w.pass r
  have htries : (act g skip w.pass (.offered r)).stats.edgesTried =
      first.stats.edgesTried + (log ++ [(v, r)]).length := by
    rw [htried, h.tries, List.length_append, List.length_singleton, Nat.add_assoc]
  have hentered := h.entered
  cases ht : (judge g skip w.pass.state r).taken with
  | none =>
    exact ⟨news, h.records.refused hfirst ht, h.planned.tried _, h.nodup, h.head, h.noted, hentered,
      htries, hvalues.trans h.values⟩
  | some taken =>
    obtain ⟨dest, t⟩ := taken
    have hdest : dest < w.pass.state.values.size := by
      rw [h.records.later.size, hsize]
      exact hg.lt_of_at? (slot_of_judge ht)
    refine ⟨_, h.records.taken hfirst ht hdest, h.planned.tried _, h.nodup, h.head, ?_, ?_, htries,
      hvalues.trans h.values⟩
    · rw [entries_changed]
      exact h.noted
    · intro u
      simp only [Option.not_mem_none, or_false] at hentered
      simp only [takers_changed, List.mem_append, List.mem_singleton, hentered, Option.map_some,
        Option.mem_some_iff, or_assoc, @eq_comm _ dest u]

/-- A value that was entered before is not due. -/
theorem Tracks.known {dest : Nat} (h : Tracks g root first (some dest) t news)
    (hmem : dest ∈ t.walk.visited) : Tracks g root first none t news where
  __ := h
  entered v := by
    rw [← h.entered v]
    simp only [Option.not_mem_none, Option.mem_some_iff, or_false]
    constructor
    · exact Or.inl
    · rintro (hv | rfl)
      · exact hv
      · exact hmem

/-- A value that is due is entered. -/
theorem Tracks.enters {dest : Nat} (h : Tracks g root first (some dest) ⟨w, outer, log⟩ news)
    (hnew : dest ∉ w.visited) :
    Tracks g root first none
      ⟨⟨w.pass.enter root dest, dest :: w.visited⟩, ⟨dest, edges g dest⟩ :: outer, log⟩
      (news ++ [.entered root dest]) where
  records := h.records.enter root dest
  planned := h.planned.entered _ hnew
  nodup := List.nodup_cons.mpr ⟨hnew, h.nodup⟩
  head := by
    have hhead := h.head
    rw [List.reverse_cons, List.head?_append, hhead]
    rfl
  noted := by
    rw [entries_entered, h.noted, List.reverse_cons, List.map_append]
    rfl
  entered v := by
    rw [takers_entered, ← h.entered v]
    simp [or_comm, eq_comm]
  tries := h.tries
  values := by
    have hvalues := h.values
    simp only [Pass.enter, List.length_cons] at hvalues ⊢
    omega

/-- Each turn of the loop keeps track. -/
theorem Tracks.step (h : Tracks g root first none t news) (hg : g.WellFormed)
    (hfirst : first.state.Valid) (hsize : first.state.values.size = g.varnodes.size)
    (hstep : t.step g skip root = some t') : ∃ news', Tracks g root first none t' news' := by
  obtain ⟨w, stack, log⟩ := t
  match stack with
  | [] => cases hstep
  | ⟨v, []⟩ :: outer =>
    cases hstep
    exact ⟨news, h.records, ⟨h.planned.each, h.planned.total⟩, h.nodup, h.head, h.noted, h.entered,
      h.tries, h.values⟩
  | ⟨v, r :: rest⟩ :: outer =>
    obtain ⟨news', hnext⟩ := h.offered skip hg hfirst hsize
    rw [step_try] at hstep
    cases ht : (judge g skip w.pass.state r).taken with
    | none =>
      rw [ht] at hstep hnext
      cases hstep
      exact ⟨news', hnext⟩
    | some taken =>
      rw [ht] at hstep hnext
      dsimp only at hstep
      split at hstep
      · rename_i hmem
        cases hstep
        exact ⟨news', hnext.known hmem⟩
      · rename_i hnew
        cases hstep
        exact ⟨_, hnext.enters hnew⟩

/-- The steps of a traversal are tracked. -/
theorem Tracks.steps (h : Tracks g root first none t news) (hg : g.WellFormed)
    (hfirst : first.state.Valid) (hsize : first.state.values.size = g.varnodes.size)
    (hsteps : Steps g skip root t t') : ∃ news', Tracks g root first none t' news' := by
  induction hsteps with
  | refl => exact ⟨news, h⟩
  | tail _ hstep ih =>
    obtain ⟨mid, hmid⟩ := ih
    exact hmid.step hg hfirst hsize hstep

end Tracks

/-- What a traversal from a root did between two passes: the values it entered, the edges it tried
from each of them, and the events. -/
structure Traversed (g : Graph) (root : VarnodeId) (p q : Pass) (entered : List VarnodeId)
    (tried : List (VarnodeId × EdgeRef)) (news : List Event) : Prop where
  /-- No value is entered twice. -/
  nodup : entered.Nodup
  /-- The root is entered first. -/
  head : entered.head? = some root
  /-- The events are those of the traversal. -/
  events : q.events.toList = p.events.toList ++ news
  /-- Entries are noted in their order. -/
  noted : entries news = entered.map (root, ·)
  /-- The values entered are the root and those that took a type. -/
  mem_entered : ∀ v, v ∈ entered ↔ v = root ∨ v ∈ takers news
  /-- A value took a type exactly if its temporary type is another one afterwards. -/
  mem_takers : ∀ v, v ∈ takers news ↔ q.state.temporary v ≠ p.state.temporary v
  /-- From each value entered its edges are tried, in their order. -/
  order : ∀ v ∈ entered, leaving v tried = edges g v
  /-- From no other value an edge is tried. -/
  sources : ∀ x ∈ tried, x.1 ∈ entered
  /-- No edge is tried twice. -/
  once : (∀ v, (g.varnode v).readers.Nodup) → tried.Nodup
  /-- The tries are counted. -/
  edgesTried : q.stats.edgesTried = p.stats.edgesTried + edgesFrom g entered
  /-- The changes along edges are counted. -/
  edgesAccepted : q.stats.edgesAccepted = p.stats.edgesAccepted + (takers news).length
  /-- The entries are counted. -/
  valuesEntered : q.stats.valuesEntered = p.stats.valuesEntered + entered.length

/-- When the loop is over nothing is left to be tried. -/
theorem Tracks.traversed {news : List Event} (h : Tracks g root p none t news)
    (hstack : t.stack = []) :
    Traversed g root p t.walk.pass t.walk.visited.reverse t.tried news := by
  have hpending : t.pending = [] := by rw [pending, hstack, List.flatMap_nil]
  have heach : ∀ v, leaving v t.tried = if v ∈ t.walk.visited then edges g v else [] := by
    intro v
    simpa [hpending] using h.planned.each v
  have htotal : t.tried.length = edgesFrom g t.walk.visited.reverse := by
    have htotal := h.planned.total
    simp only [hpending, List.length_nil, Nat.add_zero] at htotal
    rw [htotal, edgesFrom, edgesFrom, List.map_reverse, List.sum_reverse]
  refine ⟨List.nodup_reverse.mpr h.nodup, h.head, h.records.events, h.noted, ?_,
    h.records.mem_takers_iff, ?_, ?_, ?_, ?_, h.records.accepted, ?_⟩
  · intro v
    simpa using h.entered v
  · intro v hv
    rw [heach, if_pos (List.mem_reverse.mp hv)]
  · rintro ⟨v, r⟩ hx
    have hmem : r ∈ leaving v t.tried := by simpa [leaving] using hx
    rw [heach] at hmem
    by_contra hv
    rw [if_neg (by simpa using hv)] at hmem
    cases hmem
  · intro hreaders
    refine nodup_of_leaving fun v => ?_
    rw [heach]
    split
    · exact nodup_edges (hreaders v)
    · exact List.nodup_nil
  · rw [h.tries, htotal]
  · rw [h.values, List.length_reverse]

/-- Run as a loop without a bound, a traversal ends, whatever the graph and the types, and does just
this: it enters the root and each value whose type it replaces, once, and tries each edge of these
values once and in order. The counters say how much that was. -/
theorem propagate_traversed (skip : Bool) (hg : g.WellFormed) (hp : p.state.Valid)
    (hsize : p.state.values.size = g.varnodes.size) (hroot : root < g.varnodes.size) :
    ∃ last news, Steps g skip root (start g p root) last ∧ last.stack = [] ∧
      last.walk.pass = propagate g skip p root ∧
      Traversed g root p (propagate g skip p root) last.walk.visited.reverse last.tried news := by
  obtain ⟨last, hsteps, hstack, hpass⟩ := steps_propagate skip hg p hroot
  obtain ⟨news, htracks⟩ := (tracks_start hp root).steps hg hp hsize hsteps
  exact ⟨last, news, hsteps, hstack, hpass, hpass ▸ htracks.traversed hstack⟩

/-- A value is merged with a copy of the merged value, in a loop. -/
def mergedCopy : Routine :=
  let types := (TypeTable.empty 8).perform (.base 4 .int) |>.perform (.unknown 4)
  let values := (Routine.empty "f" .simple 2 types).newInput 4 ⟨1, 0⟩
    |>.newVarnode 4 ⟨1, 8⟩ |>.newVarnode 4 ⟨1, 16⟩
  (values.modifyState (·.lock 0 0)).modifyGraph fun g =>
    g.linkOp { opcode := .multiEqual, address := ⟨1, 0⟩, inputs := [0, 2], output := some 1 }
      |>.linkOp { opcode := .copy, address := ⟨1, 1⟩, inputs := [1], output := some 2 }

/-- From the input the type goes once around the loop. -/
theorem mergedCopy_traversed :
    mergedCopy.WellFormed ∧ 0 < mergedCopy.graph.varnodes.size ∧
      (∃ last, Steps mergedCopy.graph false 0
          (start mergedCopy.graph ⟨mergedCopy.state, {}, #[]⟩ 0) last ∧ last.stack = [] ∧
        last.walk.visited.reverse = [0, 1, 2] ∧
        leaving 2 last.tried = [⟨0, .input 1, .output⟩, ⟨0, .input 1, .input 0⟩,
          ⟨0, .input 1, .input 1⟩, ⟨1, .output, .input 0⟩]) ∧
      (propagate mergedCopy.graph false ⟨mergedCopy.state, {}, #[]⟩ 0).stats = ⟨11, 2, 3⟩ := by
  have hr : mergedCopy.WellFormed := by decide +kernel
  have hroot : 0 < mergedCopy.graph.varnodes.size := by decide +kernel
  have hentries : entries (propagate mergedCopy.graph false
      ⟨mergedCopy.state, {}, #[]⟩ 0).events.toList = [(0, 0), (0, 1), (0, 2)] := by
    decide +kernel
  obtain ⟨last, news, hsteps, hstack, -, h⟩ :=
    propagate_traversed (p := ⟨mergedCopy.state, {}, #[]⟩) false hr.graph (hr.valid hroot) hr.sizes
      hroot
  have hentered : last.walk.visited.reverse = [0, 1, 2] := by
    have hevents := h.events
    generalize (propagate mergedCopy.graph false ⟨mergedCopy.state, {}, #[]⟩ 0).events = events
      at hentries hevents
    rw [hevents, List.nil_append, h.noted] at hentries
    simpa using congrArg (List.map Prod.snd) hentries
  refine ⟨hr, hroot, ⟨last, hsteps, hstack, hentered, ?_⟩, by decide +kernel⟩
  rw [h.order 2 (by simp [hentered])]
  decide +kernel

end Recovery

end TypeRecovery
