import Mathlib.Data.List.Nodup
import Mathlib.Data.List.Perm.Subperm
import TypeRecovery.Recovery.Round
import TypeRecovery.Proofs.Graph.Range
import TypeRecovery.Proofs.Recovery.Run

/-!
# Rounds as runs

The phases of a round after the first guesses are runs. A traversal offers every edge of every
value it enters: its depth is bounded by the number of values, and the bound is never what stops
it. All returned values are unified to one type, which was the most specific among them when the
phase started.
-/

namespace TypeRecovery

namespace Recovery

open TypeTable TypeState

variable {g : Graph} {skip : Bool} {p q : Pass} {as bs : List Action}

/-- After a value is entered every edge that leaves it is offered. -/
def Complete (g : Graph) : List Action → Prop
  | [] => True
  | .entered _ v :: rest => (∀ r ∈ edges g v, .offered r ∈ rest) ∧ Complete g rest
  | _ :: rest => Complete g rest

/-- Complete traces one after the other are complete. -/
theorem Complete.append (h : Complete g as) (h' : Complete g bs) : Complete g (as ++ bs) := by
  induction as with
  | nil => exact h'
  | cons a rest ih =>
    cases a with
    | entered root v =>
      exact ⟨fun r hr => List.mem_append_left bs (h.1 r hr), ih h.2⟩
    | offered r => exact ih h
    | unified v t => exact ih h
    | aliased v t => exact ih h

/-- The edges of a value are offered after the value is entered. -/
theorem Complete.offered_after {root v : Nat} (h : Complete g (as ++ .entered root v :: bs)) :
    ∀ r ∈ edges g v, .offered r ∈ bs := by
  induction as with
  | nil => exact h.1
  | cons a rest ih =>
    cases a with
    | entered root' v' => exact ih h.2
    | offered r => exact ih h
    | unified v' t => exact ih h
    | aliased v' t => exact ih h

/-! ## Traversals -/

/-- The actions of traversals. -/
structure FlowTrace (g : Graph) (as : List Action) : Prop where
  /-- Nothing else happens. -/
  isFlow : ∀ a ∈ as, a.IsFlow
  /-- The edges of entered values are offered. -/
  complete : Complete g as

/-- Nothing happens in the empty trace. -/
theorem FlowTrace.nil : FlowTrace g [] := ⟨fun _ ha => (by cases ha), trivial⟩

/-- Traversals may follow one another. -/
theorem FlowTrace.append (h : FlowTrace g as) (h' : FlowTrace g bs) : FlowTrace g (as ++ bs) where
  isFlow a ha := (List.mem_append.mp ha).elim (h.isFlow a) (h'.isFlow a)
  complete := h.complete.append h'.complete

/-- A single offer is part of a traversal. -/
theorem FlowTrace.offered (r : EdgeRef) : FlowTrace g [.offered r] where
  isFlow a ha := by
    rw [List.mem_singleton.mp ha]
    trivial
  complete := trivial

/-- A value is entered before its edges are offered. -/
theorem FlowTrace.entered {root v : Nat} (h : FlowTrace g as)
    (hedges : ∀ r ∈ edges g v, .offered r ∈ as) : FlowTrace g (.entered root v :: as) where
  isFlow a ha := by
    rcases List.mem_cons.mp ha with rfl | hmem
    · trivial
    · exact h.isFlow a hmem
  complete := ⟨hedges, h.complete⟩

/-- The values entered so far are distinct values of the graph, and few enough for the depth that
is left. -/
structure Fits (g : Graph) (depth : Nat) (w : Walk) : Prop where
  /-- No value was entered twice. -/
  nodup : w.visited.Nodup
  /-- The values exist. -/
  exist : ∀ v ∈ w.visited, v < g.varnodes.size
  /-- The depth is enough for the values that are left. -/
  depth : g.varnodes.size < depth + w.visited.length

/-- A walk that fits can go on. -/
theorem Fits.pos {depth : Nat} {w : Walk} (h : Fits g depth w) : 0 < depth := by
  have hsub : w.visited ⊆ List.range g.varnodes.size :=
    fun v hv => List.mem_range.mpr (h.exist v hv)
  have hlen := (List.subperm_of_subset h.nodup hsub).length_le
  have hdepth := h.depth
  rw [List.length_range] at hlen
  omega

/-- A walk starts with its root alone. -/
theorem Fits.start {root : Nat} (hroot : root < g.varnodes.size) (q : Pass) :
    Fits g g.varnodes.size ⟨q, [root]⟩ where
  nodup := List.nodup_singleton root
  exist v hv := by
    rw [List.mem_singleton.mp hv]
    exact hroot
  depth := Nat.lt_succ_self _

/-- A walk that enters a new value fits one step less. -/
theorem Fits.enter (hg : g.WellFormed) {depth : Nat} {w : Walk} (h : Fits g (depth + 1) w)
    {o dest : Nat} {slot : Slot} (hslot : (g.op o).at? slot = some dest) (hnew : dest ∉ w.visited)
    (q : Pass) : Fits g depth ⟨q, dest :: w.visited⟩ where
  nodup := List.nodup_cons.mpr ⟨hnew, h.nodup⟩
  exist v hv := by
    rcases List.mem_cons.mp hv with rfl | hmem
    · exact hg.lt_of_at? hslot
    · exact h.exist v hmem
  depth := by
    have hdepth := h.depth
    rw [List.length_cons]
    omega

/-- A traversal goes on from a value that takes what an edge offers, unless it was there before. -/
theorem tryEdge_eq (g : Graph) (skip : Bool) (root : Nat) (next : VarnodeId → Walk → Walk)
    (w : Walk) (r : EdgeRef) :
    tryEdge g skip root next w r =
      match (judge g skip w.pass.state r).taken with
      | none => { w with pass := act g skip w.pass (.offered r) }
      | some (dest, _) =>
        if dest ∈ w.visited then { w with pass := act g skip w.pass (.offered r) }
        else next dest ⟨(act g skip w.pass (.offered r)).enter root dest, dest :: w.visited⟩ := by
  have hstate : w.pass.countTried.state = w.pass.state := rfl
  rw [tryEdge, act, offer_eq, hstate]
  cases ht : (judge g skip w.pass.state r).taken with
  | none => rfl
  | some taken =>
    dsimp only
    rw [if_pos rfl, if_pos rfl, slot_of_judge ht]

/-- Trying an edge offers it and goes on from its end if the offer is taken. -/
theorem tryEdge_trace (root : Nat) (hg : g.WellFormed) {depth : Nat}
    {next : VarnodeId → Walk → Walk}
    (hnext : ∀ v w, Fits g depth w → ∃ as, Run g skip w.pass as (next v w).pass ∧
      FlowTrace g as ∧ (∀ r ∈ edges g v, .offered r ∈ as) ∧ Fits g depth (next v w))
    {w : Walk} (hw : Fits g (depth + 1) w) (r : EdgeRef) :
    ∃ as, Run g skip w.pass as (tryEdge g skip root next w r).pass ∧ FlowTrace g as ∧
      .offered r ∈ as ∧ Fits g (depth + 1) (tryEdge g skip root next w r) := by
  rw [tryEdge_eq]
  cases ht : (judge g skip w.pass.state r).taken with
  | none =>
    exact ⟨[.offered r], .cons trivial .nil, .offered r, List.mem_cons_self, hw.nodup, hw.exist,
      hw.depth⟩
  | some taken =>
    dsimp only
    split
    · exact ⟨[.offered r], .cons trivial .nil, .offered r, List.mem_cons_self, hw.nodup, hw.exist,
        hw.depth⟩
    · -- the destination is entered, which uses up one unit of depth
      rename_i hnew
      obtain ⟨as, hrun, hflow, hedges, hafter⟩ :=
        hnext taken.1 _ (hw.enter hg (slot_of_judge ht) hnew
          ((act g skip w.pass (.offered r)).enter root taken.1))
      refine ⟨.offered r :: .entered root taken.1 :: as, .cons trivial (.cons trivial hrun),
        (FlowTrace.offered r).append (hflow.entered hedges), List.mem_cons_self, hafter.nodup,
        hafter.exist, Nat.lt_of_lt_of_le hafter.depth (by omega)⟩

/-- Trying edges one after the other offers all of them. -/
theorem tryEdge_foldl_trace (root : Nat) (hg : g.WellFormed) {depth : Nat}
    {next : VarnodeId → Walk → Walk}
    (hnext : ∀ v w, Fits g depth w → ∃ as, Run g skip w.pass as (next v w).pass ∧
      FlowTrace g as ∧ (∀ r ∈ edges g v, .offered r ∈ as) ∧ Fits g depth (next v w))
    (todo : List EdgeRef) {w : Walk} (hw : Fits g (depth + 1) w) :
    ∃ as, Run g skip w.pass as (todo.foldl (tryEdge g skip root next) w).pass ∧ FlowTrace g as ∧
      (∀ r ∈ todo, .offered r ∈ as) ∧
      Fits g (depth + 1) (todo.foldl (tryEdge g skip root next) w) := by
  induction todo generalizing w with
  | nil => exact ⟨[], .nil, .nil, fun _ hr => (by cases hr), hw⟩
  | cons r rest ih =>
    obtain ⟨as, hrun, hflow, hmem, hafter⟩ := tryEdge_trace root hg hnext hw r
    obtain ⟨bs, hrun', hflow', hmem', hafter'⟩ := ih hafter
    refine ⟨as ++ bs, hrun.append hrun', hflow.append hflow', ?_, hafter'⟩
    intro r' hr'
    rcases List.mem_cons.mp hr' with rfl | hlater
    · exact List.mem_append_left bs hmem
    · exact List.mem_append_right as (hmem' r' hlater)

/-- A walk that fits offers all edges of the value it is at. -/
theorem explore_trace (hg : g.WellFormed) (root depth : Nat) (v : Nat) {w : Walk}
    (hw : Fits g depth w) :
    ∃ as, Run g skip w.pass as (explore g skip root depth v w).pass ∧ FlowTrace g as ∧
      (∀ r ∈ edges g v, .offered r ∈ as) ∧ Fits g depth (explore g skip root depth v w) := by
  induction depth generalizing v w with
  | zero => exact absurd hw.pos (Nat.lt_irrefl 0)
  | succ depth ih => exact tryEdge_foldl_trace root hg (fun v w hw => ih v hw) (edges g v) hw

/-- Pushing the type of a value is a traversal from it. -/
theorem propagate_trace (skip : Bool) (hg : g.WellFormed) (p : Pass) {root : Nat}
    (hroot : root < g.varnodes.size) :
    ∃ as, Run g skip p (.entered root root :: as) (propagate g skip p root) ∧
      FlowTrace g (.entered root root :: as) := by
  obtain ⟨as, hrun, hflow, hedges, -⟩ :=
    explore_trace hg root _ root (.start hroot (p.enter root root))
  exact ⟨as, .cons trivial hrun, hflow.entered hedges⟩

/-- Pushing all types is a sequence of traversals, one from each observable value. -/
theorem propagateAll_trace (skip : Bool) (hg : g.WellFormed) (p : Pass) :
    ∃ as, Run g skip p as (propagateAll g skip p) ∧ FlowTrace g as ∧
      ∀ v ∈ g.observables, .entered v v ∈ as := by
  have hall : ∀ v ∈ g.observables, v < g.varnodes.size := fun v hv =>
    Graph.WellFormed.lt_of_observable (hg.mem_observables.mp hv)
  rw [propagateAll]
  generalize g.observables = todo at hall
  induction todo generalizing p with
  | nil => exact ⟨[], .nil, .nil, fun _ hv => by cases hv⟩
  | cons v rest ih =>
    obtain ⟨as, hrun, hflow⟩ := propagate_trace skip hg p (hall v List.mem_cons_self)
    obtain ⟨bs, hrun', hflow', hentered⟩ := ih (propagate g skip p v)
      fun w hw => hall w (List.mem_cons_of_mem v hw)
    refine ⟨_, hrun.append hrun', hflow.append hflow', ?_⟩
    intro w hw
    rcases List.mem_cons.mp hw with rfl | hlater
    · exact List.mem_append_left bs List.mem_cons_self
    · exact List.mem_append_right _ (hentered w hlater)

/-- A fold of steps that are runs is a run, if the steps keep what they need. -/
theorem foldl_trace (skip : Bool) {α : Type} {f : Pass → α → Pass}
    {K : Pass → List Action → Prop} {P : Pass → Prop} (hnil : ∀ p, K p [])
    (happend : ∀ p as q bs, Run g skip p as q → K p as → K q bs → K p (as ++ bs))
    (hkeep : ∀ p as q, P p → Run g skip p as q → P q) {todo : List α}
    (hstep : ∀ p, P p → ∀ x ∈ todo, ∃ as, Run g skip p as (f p x) ∧ K p as) (hp : P p) :
    ∃ as, Run g skip p as (todo.foldl f p) ∧ K p as := by
  induction todo generalizing p with
  | nil => exact ⟨[], .nil, hnil p⟩
  | cons x rest ih =>
    obtain ⟨as, hrun, hK⟩ := hstep p hp x List.mem_cons_self
    obtain ⟨bs, hrun', hK'⟩ := ih (fun p hp y hy => hstep p hp y (List.mem_cons_of_mem x hy))
      (hkeep p as _ hp hrun)
    exact ⟨as ++ bs, hrun.append hrun', happend p as _ bs hrun hK hK'⟩

/-- Types that exist before a run exist after it. -/
theorem Run.keeps_has {t : Nat} (h : Run g skip p as q)
    (hp : p.state.Valid ∧ p.state.types.Has t) : q.state.Valid ∧ q.state.types.Has t :=
  ⟨h.valid hp.1, (h.later hp.1).types.extends.has hp.2⟩

/-! ## Returned values -/

/-- The value that is found is one of those compared, and no value compared has a more specific
type. -/
theorem mostSpecificFrom_some (s : TypeState) (index i b : Nat) (l : List VarnodeId) :
    ∃ j v, mostSpecificFrom s index (some (i, b)) l = some (j, v) ∧ (v = b ∨ v ∈ l) ∧
      (s.types.order (s.temporary v) (s.temporary b)).isLE = true ∧
      ∀ w ∈ l, (s.types.order (s.temporary v) (s.temporary w)).isLE = true := by
  induction l generalizing index i b with
  | nil =>
    refine ⟨i, b, rfl, Or.inl rfl, ?_, fun _ hw => (by cases hw)⟩
    rw [order_self]
    rfl
  | cons x rest ih =>
    rw [mostSpecificFrom]
    by_cases hmore : s.types.moreSpecific (s.temporary x) (s.temporary b) = true
    · obtain ⟨j, v, hv, hmem, hle, hall⟩ := ih (index + 1) index x
      have hxb : (s.types.order (s.temporary x) (s.temporary b)).isLE = true := by
        rw [(moreSpecific_iff ..).mp hmore]
        rfl
      refine ⟨j, v, by rw [if_pos hmore, hv], ?_, ?_, ?_⟩
      · exact Or.inr (List.mem_cons.mpr hmem)
      · exact Std.TransCmp.isLE_trans hle hxb
      · intro w hw
        rcases List.mem_cons.mp hw with rfl | hlater
        · exact hle
        · exact hall w hlater
    · obtain ⟨j, v, hv, hmem, hle, hall⟩ := ih (index + 1) i b
      have hbx : (s.types.order (s.temporary b) (s.temporary x)).isLE = true :=
        isLE_of_order_ne_lt fun hlt => hmore ((moreSpecific_iff ..).mpr hlt)
      refine ⟨j, v, by rw [if_neg hmore, hv], ?_, hle, ?_⟩
      · exact hmem.imp_right (List.mem_cons_of_mem x)
      · intro w hw
        rcases List.mem_cons.mp hw with rfl | hlater
        · exact Std.TransCmp.isLE_trans hle hbx
        · exact hall w hlater

/-- The canonical value is one of the values, and no other has a more specific type. -/
theorem mostSpecificFrom_least {s : TypeState} {l : List VarnodeId} {i v : Nat}
    (h : mostSpecificFrom s 0 none l = some (i, v)) :
    ∀ w ∈ l, (s.types.order (s.temporary v) (s.temporary w)).isLE = true := by
  cases l with
  | nil => cases h
  | cons x rest =>
    obtain ⟨j, b, hb, -, hle, hall⟩ := mostSpecificFrom_some s 1 0 x rest
    rw [mostSpecificFrom, hb] at h
    cases h
    intro w hw
    rcases List.mem_cons.mp hw with rfl | hlater
    · exact hle
    · exact hall w hlater

/-- A returned value is an operand of a return. -/
theorem mem_inputs_of_mem_returnedValues {v : Nat} (h : v ∈ returnedValues g) :
    ∃ o, (g.op o).opcode = .ret ∧ v ∈ (g.op o).inputs := by
  rw [returnedValues, List.mem_filterMap] at h
  obtain ⟨o, ho, hv⟩ := h
  dsimp only at hv
  split at hv
  · cases hv
  · rw [Graph.returnOps, List.mem_filter] at ho
    exact ⟨o, of_decide_eq_true ho.2, Graph.mem_inputs_of_input? hv⟩

/-- The actions of the unification of returned values to one type. -/
structure ReturnTrace (g : Graph) (t : TypeId) (as : List Action) : Prop where
  /-- The edges of entered values are offered. -/
  complete : Complete g as
  /-- Returned values get the type, and the type is pushed on. -/
  kinds : ∀ a ∈ as, a.IsFlow ∨ ∃ v ∈ returnedValues g, a = .unified v t
  /-- Nothing is pushed before a returned value got the type. -/
  starts : as = [] ∨ ∃ v rest, as = .unified v t :: rest

/-- Nothing is unified by the empty trace. -/
theorem ReturnTrace.nil {t : Nat} : ReturnTrace g t [] :=
  ⟨trivial, fun _ ha => (by cases ha), Or.inl rfl⟩

/-- Unifications may follow one another. -/
theorem ReturnTrace.append {t : Nat} (h : ReturnTrace g t as) (h' : ReturnTrace g t bs) :
    ReturnTrace g t (as ++ bs) where
  complete := h.complete.append h'.complete
  kinds a ha := (List.mem_append.mp ha).elim (h.kinds a) (h'.kinds a)
  starts := by
    rcases h.starts with rfl | ⟨v, rest, rfl⟩
    · exact h'.starts
    · exact Or.inr ⟨v, rest ++ bs, rfl⟩

/-- A returned value gets the common type and pushes it on, or nothing happens. -/
theorem unifyReturn_trace (skip : Bool) (hg : g.WellFormed) {t v : Nat} (hp : p.state.types.Has t)
    (hv : v ∈ returnedValues g) (size : Nat) :
    ∃ as, Run g skip p as (unifyReturn g skip t size p v) ∧ ReturnTrace g t as := by
  have hlt : v < g.varnodes.size := by
    obtain ⟨o, -, hin⟩ := mem_inputs_of_mem_returnedValues hv
    exact hg.lt_of_mem_inputs hin
  rw [unifyReturn]
  split
  · exact ⟨[], .nil, .nil⟩
  · rename_i hfree
    split
    · exact ⟨[], .nil, .nil⟩
    · rename_i hbool
      split
      · exact ⟨[], .nil, .nil⟩
      · rename_i hne
        obtain ⟨as, hrun, hflow⟩ :=
          propagate_trace skip hg (p.setTemporary v t .unifiedReturn) hlt
        have hlocked : p.state.locked v = false :=
          Bool.eq_false_iff.mpr fun hl => hfree (Or.inr hl)
        refine ⟨_, .cons (a := .unified v t) ⟨hp, hlocked, hne, hbool⟩ hrun, hflow.complete, ?_,
          Or.inr ⟨v, _, rfl⟩⟩
        intro a ha
        rcases List.mem_cons.mp ha with rfl | hlater
        · exact Or.inr ⟨v, hv, rfl⟩
        · exact Or.inl (hflow.isFlow a hlater)

/-- Unifying returned values is a run that gives them the least of their types. -/
theorem unifyReturns_trace (skip : Bool) (hg : g.WellFormed) (hp : p.state.Valid) :
    ∃ t as, Run g skip p as (unifyReturns g skip p) ∧ ReturnTrace g t as ∧
      (as ≠ [] → p.state.types.Has t ∧ ∀ v ∈ returnedValues g,
        (p.state.types.order t (p.state.temporary v)).isLE = true) := by
  rw [unifyReturns]
  split
  · exact ⟨0, [], .nil, .nil, fun h => absurd rfl h⟩
  · cases hbest : mostSpecificFrom p.state 0 none (returnedValues g) with
    | none => exact ⟨0, [], .nil, .nil, fun h => absurd rfl h⟩
    | some best =>
      obtain ⟨canonical, b⟩ := best
      obtain ⟨as, hrun, htrace⟩ := foldl_trace skip (g := g)
        (f := unifyReturn g skip (p.state.temporary b) (g.varnode b).size)
        (fun _ => .nil) (fun _ _ _ _ _ => ReturnTrace.append)
        (fun _ _ _ hP hrun => hrun.keeps_has hP)
        (fun q hq v hv => unifyReturn_trace skip hg hq.2 (List.mem_of_mem_eraseIdx hv) _)
        ⟨hp, hp.temporary b⟩
      exact ⟨_, as, hrun, htrace, fun _ => ⟨hp.temporary b, mostSpecificFrom_least hbest⟩⟩

/-! ## The frame -/

/-- A value of the frame that may get its type from a pointer into the frame. -/
structure FrameValue (g : Graph) (v : VarnodeId) : Prop where
  /-- The value is observable. -/
  observable : (g.varnode v).isObservable = true
  /-- It stores no symbol. -/
  entry : (g.varnode v).entry = none
  /-- It is found in the frame. -/
  located : ∃ l ∈ g.locations, l.id = v ∧ l.space = g.stack

private theorem located_of_mem_coveredValues {start : UInt64} {size v : Nat}
    (h : v ∈ coveredValues g start size) : ∃ l ∈ g.locations, l.id = v ∧ l.space = g.stack := by
  obtain ⟨l, hl, ⟨hspace, -, -⟩, hid⟩ := Graph.mem_valuesInRange.mp h
  exact ⟨l, hl, hid, hspace⟩

/-- The actions that copy types onto the frame. -/
structure FrameTrace (g : Graph) (as : List Action) : Prop where
  /-- The edges of entered values are offered. -/
  complete : Complete g as
  /-- Values of the frame get types, and the types are pushed on. -/
  kinds : ∀ a ∈ as, a.IsFlow ∨ ∃ v t, FrameValue g v ∧ a = .aliased v t

/-- Nothing is copied by the empty trace. -/
theorem FrameTrace.nil : FrameTrace g [] := ⟨trivial, fun _ ha => by cases ha⟩

/-- Copies may follow one another. -/
theorem FrameTrace.append (h : FrameTrace g as) (h' : FrameTrace g bs) :
    FrameTrace g (as ++ bs) where
  complete := h.complete.append h'.complete
  kinds a ha := (List.mem_append.mp ha).elim (h.kinds a) (h'.kinds a)

/-- What happens to a value of the frame if every piece is looked up anew. -/
def aliasValue (g : Graph) (skipMerges : Bool) (start : UInt64) (pointee : TypeId) (p : Pass)
    (v : VarnodeId) : Pass :=
  let node := g.varnode v
  if !node.isObservable || p.state.locked v || node.entry.isSome then p
  else
    let offset := (g.stackSpace.wrap (node.address.offset - start)).toNat
    if p.state.types.size pointee < offset + node.size then p
    else
      match p.state.types.exactPiece pointee offset node.size with
      | none => p
      | some piece =>
        if p.state.types.moreSpecific piece (p.state.temporary v) then
          propagate g skipMerges (p.setTemporary v piece .stackAlias) v
        else p

/-- The offset of a value of the frame from a place of the frame. -/
def frameDistance (g : Graph) (start : UInt64) (v : VarnodeId) : Nat :=
  (g.stackSpace.wrap ((g.varnode v).address.offset - start)).toNat

/-- The piece of `pointee` that a value of the frame is to store. -/
structure Stores (g : Graph) (s : TypeState) (start : UInt64) (pointee : TypeId) (v : VarnodeId)
    (piece : TypeId) : Prop where
  /-- The value is observable. -/
  observable : (g.varnode v).isObservable = true
  /-- Its type is not fixed. -/
  unlocked : s.locked v = false
  /-- It stores no symbol. -/
  entry : (g.varnode v).entry = none
  /-- It ends before the type does. -/
  fits : frameDistance g start v + (g.varnode v).size ≤ s.types.size pointee
  /-- The piece is made of the bytes of the value. -/
  piece : s.types.exactPiece pointee (frameDistance g start v) (g.varnode v).size = some piece

/-- A reference into the frame leads to a value: its pointer points to a type, and the value starts
within the bytes of that type and consists of the bytes of the piece. -/
def Leads (g : Graph) (t : TypeTable) (temporary : VarnodeId → TypeId)
    (reference : VarnodeId × UInt64) (v : VarnodeId) (piece : TypeId) : Prop :=
  ∃ pointee, t.pointee? (temporary reference.1) = some pointee ∧
    v ∈ coveredValues g reference.2 (t.size pointee) ∧
    t.exactPiece pointee (frameDistance g reference.2 v) (g.varnode v).size = some piece

/-- Where a reference leads stays the same when the table grows. -/
theorem Leads.extends {t u : TypeTable} {temporary : VarnodeId → TypeId}
    {reference : VarnodeId × UInt64} {v piece : Nat} (h : Leads g t temporary reference v piece)
    (ht : t.WellFormed) (hhas : ∀ w, t.Has (temporary w)) (hu : t.Extends u) :
    Leads g u temporary reference v piece := by
  obtain ⟨pointee, hpoints, hcovers, hpiece⟩ := h
  have hpointee := ht.has_pointee (hhas _) hpoints
  refine ⟨pointee, ?_, ?_, ?_⟩
  · rw [hu.pointee? (hhas _)]
    exact hpoints
  · rw [hu.size hpointee]
    exact hcovers
  · rw [hu.exactPiece ht hpointee]
    exact hpiece

/-- At some moment of a run a reference into the frame led to a value. -/
def Led (g : Graph) (skip : Bool) (p : Pass) (as : List Action) (v : VarnodeId)
    (piece : TypeId) : Prop :=
  ∃ early late m base reference, as = early ++ late ∧ Run g skip p early m ∧
    g.spaceBase = some base ∧ reference ∈ frameReferences g base ∧
    Leads g m.state.types m.state.temporary reference v piece

/-- Whenever a value of the frame gets a type, a reference led to it before. -/
def Sourced (g : Graph) (skip : Bool) (p : Pass) (as : List Action) : Prop :=
  ∀ before v piece after, as = before ++ .aliased v piece :: after → Led g skip p before v piece

private theorem sourced_of_not_mem (skip : Bool) (p : Pass) (h : ∀ v piece, .aliased v piece ∉ as) :
    Sourced g skip p as := by
  rintro before v piece after rfl
  exact absurd (List.mem_append_right before List.mem_cons_self) (h v piece)

/-- Nothing comes from anywhere in the empty trace. -/
theorem Sourced.nil (skip : Bool) (p : Pass) : Sourced g skip p [] :=
  sourced_of_not_mem skip p fun _ _ h => by cases h

/-- A reference that led to a value in the first run did so in the whole run. -/
theorem Sourced.append (hrun : Run g skip p as q) (h : Sourced g skip p as)
    (h' : Sourced g skip q bs) : Sourced g skip p (as ++ bs) := by
  intro before v piece after hsplit
  have hsecond (mid : List Action) (hbs : bs = mid ++ .aliased v piece :: after) :
      Led g skip p (as ++ mid) v piece := by
    obtain ⟨early, late, m, base, reference, rfl, hm, hleads⟩ := h' mid v piece after hbs
    exact ⟨as ++ early, late, m, base, reference, (List.append_assoc ..).symm, hrun.append hm,
      hleads⟩
  rcases List.append_eq_append_iff.mp hsplit with ⟨mid, rfl, hbs⟩ | ⟨mid, has, hafter⟩
  · exact hsecond mid hbs
  · cases mid with
    | nil =>
      rw [List.append_nil] at has
      rw [← has, ← List.append_nil as]
      exact hsecond [] hafter.symm
    | cons a mid =>
      obtain ⟨rfl, -⟩ := List.cons.inj hafter
      exact h before v piece mid has

/-- A value of the frame gets the piece that it stores and pushes it on, or it stores no piece that
is more specific than its type. -/
theorem aliasValue_cases (g : Graph) (skip : Bool) (start : UInt64) (pointee : Nat) (p : Pass)
    (v : Nat) :
    (∃ piece, Stores g p.state start pointee v piece ∧
        p.state.types.order piece (p.state.temporary v) = .lt ∧
        aliasValue g skip start pointee p v =
          propagate g skip (p.setTemporary v piece .stackAlias) v) ∨
      aliasValue g skip start pointee p v = p ∧
        ∀ piece, Stores g p.state start pointee v piece →
          p.state.types.order piece (p.state.temporary v) ≠ .lt := by
  rw [aliasValue]
  dsimp only
  split
  · rename_i hblocked
    refine Or.inr ⟨rfl, fun piece h => ?_⟩
    rw [h.observable, h.unlocked, h.entry] at hblocked
    cases hblocked
  · rename_i hfree
    simp only [Bool.or_eq_true, Bool.not_eq_true', not_or, Bool.not_eq_false,
      Option.not_isSome_iff_eq_none] at hfree
    obtain ⟨⟨hobs, hlocked⟩, hentry⟩ := hfree
    split
    · rename_i hlong
      exact Or.inr ⟨rfl, fun piece h => absurd h.fits (Nat.not_le_of_lt hlong)⟩
    · rename_i hfits
      cases hpiece : p.state.types.exactPiece pointee
          (g.stackSpace.wrap ((g.varnode v).address.offset - start)).toNat (g.varnode v).size with
      | none =>
        refine Or.inr ⟨rfl, fun piece h => ?_⟩
        cases hpiece.symm.trans h.piece
      | some piece =>
        dsimp only
        split
        · rename_i hmore
          exact Or.inl ⟨piece, ⟨hobs, Bool.eq_false_iff.mpr hlocked, hentry,
            Nat.le_of_not_lt hfits, hpiece⟩, (moreSpecific_iff ..).mp hmore, rfl⟩
        · rename_i hmore
          refine Or.inr ⟨rfl, fun piece' h => ?_⟩
          cases hpiece.symm.trans h.piece
          exact fun hlt => hmore ((moreSpecific_iff ..).mpr hlt)

/-- A value of the frame gets the piece that it stores and pushes it on, or nothing happens. -/
theorem aliasValue_run (skip : Bool) (hg : g.WellFormed) (start : UInt64) {pointee : Nat}
    (hp : p.state.Valid ∧ p.state.types.Has pointee) (v : Nat) :
    ∃ as, Run g skip p as (aliasValue g skip start pointee p v) ∧
      (as = [] ∨ ∃ piece flow, as = .aliased v piece :: flow ∧
        Stores g p.state start pointee v piece ∧ FlowTrace g flow) := by
  rcases aliasValue_cases g skip start pointee p v with
    ⟨piece, hstores, horder, heq⟩ | ⟨heq, -⟩
  · obtain ⟨as, hrun, hflow⟩ := propagate_trace skip hg (p.setTemporary v piece .stackAlias)
      (Graph.WellFormed.lt_of_observable hstores.observable)
    have henabled : (Action.aliased v piece).Enabled g p :=
      ⟨hp.1.types.has_exactPiece hp.2 hstores.piece, hstores.unlocked, horder, pointee, _, hp.2,
        hstores.piece⟩
    rw [heq]
    exact ⟨_, .cons henabled hrun, Or.inr ⟨piece, _, rfl, hstores, hflow⟩⟩
  · rw [heq]
    exact ⟨[], .nil, Or.inl rfl⟩

/-- A turn of a value of the frame gives it the piece that it stores, and no other value a piece. -/
theorem aliasValue_trace (skip : Bool) (hg : g.WellFormed) {start : UInt64} {pointee : Nat}
    (hp : p.state.Valid ∧ p.state.types.Has pointee) {size v : Nat}
    (hv : v ∈ coveredValues g start size) :
    ∃ as, Run g skip p as (aliasValue g skip start pointee p v) ∧ FrameTrace g as ∧
      ∀ w piece, .aliased w piece ∈ as → v = w ∧
        p.state.types.exactPiece pointee (frameDistance g start v) (g.varnode v).size =
          some piece := by
  obtain ⟨as, hrun, rfl | ⟨piece, flow, rfl, hstores, hflow⟩⟩ := aliasValue_run skip hg start hp v
  · exact ⟨[], hrun, .nil, fun _ _ h => by cases h⟩
  · refine ⟨_, hrun, ⟨hflow.complete, fun a ha => ?_⟩, fun w piece' hmem => ?_⟩
    · rcases List.mem_cons.mp ha with rfl | hlater
      · exact Or.inr ⟨v, piece,
          ⟨hstores.observable, hstores.entry, located_of_mem_coveredValues hv⟩, rfl⟩
      · exact Or.inl (hflow.isFlow a hlater)
    · rcases List.mem_cons.mp hmem with heq | hlater
      · cases heq
        exact ⟨rfl, hstores.piece⟩
      · cases hflow.isFlow _ hlater

/-- The piece that was looked up last is what a table says. -/
def Lookup.Sound (t : TypeTable) (pointee : TypeId) (last : Lookup) : Prop :=
  last.piece = t.exactPiece pointee last.offset last.size

/-- The piece that is remembered is the one that would be looked up. -/
theorem Lookup.Sound.recall {t : TypeTable} {pointee : Nat} {last : Lookup}
    (h : last.Sound t pointee) (offset size : Nat) :
    last.recall t pointee offset size = ⟨offset, size, t.exactPiece pointee offset size⟩ := by
  rw [Lookup.recall]
  split
  · rename_i hplace
    obtain ⟨rfl, rfl⟩ := hplace
    rw [← h]
  · rfl

/-- A type is its own piece. -/
theorem Lookup.sound_self (t : TypeTable) (pointee : Nat) :
    Lookup.Sound t pointee ⟨0, t.size pointee, some pointee⟩ := by
  rw [Lookup.Sound, exactPiece, pieceBelow, if_pos ⟨rfl, rfl⟩]

/-- What was looked up stays right when the table grows. -/
theorem Lookup.Sound.extends {t u : TypeTable} {pointee : Nat} {last : Lookup}
    (h : last.Sound t pointee) (ht : t.WellFormed) (hpointee : t.Has pointee)
    (hu : t.Extends u) : last.Sound u pointee := by
  rw [Lookup.Sound, hu.exactPiece ht hpointee]
  exact h

/-- The piece that was looked up last is used only where looking it up again gives the same. -/
theorem aliasNext_spec (skip : Bool) (start : UInt64) {pointee : Nat} {a : Aliasing}
    (h : a.last.Sound a.pass.state.types pointee) (v : Nat) :
    (aliasNext g skip start pointee a v).pass = aliasValue g skip start pointee a.pass v ∧
      (aliasNext g skip start pointee a v).last.Sound a.pass.state.types pointee := by
  rw [aliasNext, aliasValue]
  dsimp only
  split
  · exact ⟨rfl, h⟩
  · split
    · exact ⟨rfl, h⟩
    · rw [h.recall]
      cases hpiece : a.pass.state.types.exactPiece pointee
          (g.stackSpace.wrap ((g.varnode v).address.offset - start)).toNat (g.varnode v).size with
      | none => exact ⟨rfl, hpiece.symm⟩
      | some piece =>
        dsimp only
        split
        · exact ⟨rfl, hpiece.symm⟩
        · exact ⟨rfl, hpiece.symm⟩

private theorem aliasNext_foldl (skip : Bool) (hg : g.WellFormed) {start : UInt64}
    {pointee size : Nat} {a : Aliasing} (hp : a.pass.state.Valid ∧ a.pass.state.types.Has pointee)
    (h : a.last.Sound a.pass.state.types pointee) {todo : List VarnodeId}
    (htodo : ∀ v ∈ todo, v ∈ coveredValues g start size) :
    (todo.foldl (aliasNext g skip start pointee) a).pass =
      todo.foldl (aliasValue g skip start pointee) a.pass := by
  induction todo generalizing a with
  | nil => rfl
  | cons v rest ih =>
    obtain ⟨hpass, hsound⟩ := aliasNext_spec (g := g) skip start h v
    obtain ⟨as, hrun, -⟩ := aliasValue_trace skip hg hp (htodo v List.mem_cons_self)
    have hext := (hrun.later hp.1).types.extends
    rw [← hpass] at hrun hext
    rw [List.foldl_cons, List.foldl_cons, ← hpass]
    exact ih (hrun.keeps_has hp) (hsound.extends hp.1.types hp.2 hext)
      fun w hw => htodo w (List.mem_cons_of_mem v hw)

/-- Looking up every piece anew makes no difference. -/
theorem aliasReference_eq (skip : Bool) (hg : g.WellFormed) (hp : p.state.Valid)
    (reference : VarnodeId × UInt64) :
    aliasReference g skip p reference =
      match p.state.types.pointee? (p.state.temporary reference.1) with
      | none => p
      | some pointee =>
        if p.state.types.metatype pointee = .spacebase ∨
            p.state.types.metatype pointee = .unknown then p
        else
          (coveredValues g reference.2 (p.state.types.size pointee)).foldl
            (aliasValue g skip reference.2 pointee) p := by
  rw [aliasReference]
  cases hpointee : p.state.types.pointee? (p.state.temporary reference.1) with
  | none => rfl
  | some pointee =>
    have hhas := hp.types.has_pointee (hp.temporary _) hpointee
    dsimp only
    rw [aliasNext_foldl skip hg ⟨hp, hhas⟩ (Lookup.sound_self _ _) fun _ hv => hv]

/-- The actions that copy types onto the frame from the places that one reference leads to, as the
temporary types are when the reference has its turn. -/
def ReferenceTrace (g : Graph) (s : TypeState) (reference : VarnodeId × UInt64)
    (as : List Action) : Prop :=
  FrameTrace g as ∧
    ∀ v piece, .aliased v piece ∈ as → Leads g s.types s.temporary reference v piece

/-- A reference that leads nowhere copies nothing. -/
theorem ReferenceTrace.nil (s : TypeState) (reference : VarnodeId × UInt64) :
    ReferenceTrace g s reference [] := ⟨.nil, fun _ _ h => by cases h⟩

/-- What a reference leads to may be copied piece by piece. -/
theorem ReferenceTrace.append {s : TypeState} {reference : VarnodeId × UInt64}
    (h : ReferenceTrace g s reference as) (h' : ReferenceTrace g s reference bs) :
    ReferenceTrace g s reference (as ++ bs) :=
  ⟨h.1.append h'.1, fun v piece hmem => (List.mem_append.mp hmem).elim (h.2 v piece) (h'.2 v piece)⟩

/-- What one reference leads to comes from it. -/
theorem ReferenceTrace.sourced {reference : VarnodeId × UInt64}
    (h : ReferenceTrace g p.state reference as) (skip : Bool) {base : VarnodeId}
    (hbase : g.spaceBase = some base) (hmem : reference ∈ frameReferences g base) :
    Sourced g skip p as := by
  intro before v piece after hsplit
  refine ⟨[], before, p, base, reference, rfl, .nil, hbase, hmem, h.2 v piece ?_⟩
  rw [hsplit]
  exact List.mem_append_right before List.mem_cons_self

/-- The turn of a reference is a run that copies what it leads to. -/
theorem aliasReference_trace (skip : Bool) (hg : g.WellFormed) (hp : p.state.Valid)
    (reference : VarnodeId × UInt64) :
    ∃ as, Run g skip p as (aliasReference g skip p reference) ∧
      ReferenceTrace g p.state reference as := by
  rw [aliasReference_eq skip hg hp]
  cases hpointee : p.state.types.pointee? (p.state.temporary reference.1) with
  | none => exact ⟨[], .nil, .nil _ _⟩
  | some pointee =>
    have hhas := hp.types.has_pointee (hp.temporary _) hpointee
    dsimp only
    split
    · exact ⟨[], .nil, .nil _ _⟩
    · refine foldl_trace skip (K := fun _ => ReferenceTrace g p.state reference)
        (P := fun q => q.state.Valid ∧ p.state.types.Extends q.state.types) (fun _ => .nil _ _)
        (fun _ _ _ _ _ => .append)
        (fun _ _ _ hP hrun => ⟨hrun.valid hP.1, hP.2.trans (hrun.later hP.1).types.extends⟩)
        (fun q hq v hv => ?_) ⟨hp, .refl _⟩
      obtain ⟨as, hrun, htrace, hpieces⟩ :=
        aliasValue_trace skip hg ⟨hq.1, hq.2.has hhas⟩ hv
      refine ⟨as, hrun, htrace, fun w piece hmem => ?_⟩
      obtain ⟨rfl, hpiece⟩ := hpieces w piece hmem
      rw [hq.2.exactPiece hp.types hhas] at hpiece
      exact ⟨pointee, hpointee, hv, hpiece⟩

/-- Copying types onto the frame is a run in which all of them come from references. -/
theorem aliasFrame_trace (skip : Bool) (hg : g.WellFormed) (hp : p.state.Valid) :
    ∃ as, Run g skip p as (aliasFrame g skip p) ∧ FrameTrace g as ∧ Sourced g skip p as := by
  have hnone : ∃ as, Run g skip p as p ∧ FrameTrace g as ∧ Sourced g skip p as :=
    ⟨[], .nil, .nil, .nil skip p⟩
  rw [aliasFrame]
  cases hbase : g.spaceBase with
  | none => exact hnone
  | some base =>
    dsimp only
    split
    · refine foldl_trace skip (K := fun p as => FrameTrace g as ∧ Sourced g skip p as)
        (fun p => ⟨.nil, .nil skip p⟩)
        (fun _ _ _ _ hrun h h' => ⟨h.1.append h'.1, h.2.append hrun h'.2⟩)
        (fun _ _ _ hP hrun => hrun.valid hP) (fun q hq reference hmem => ?_) hp
      obtain ⟨as, hrun, htrace⟩ := aliasReference_trace skip hg hq reference
      exact ⟨as, hrun, htrace.1, htrace.sourced skip hbase hmem⟩
    · exact hnone

/-! ## The phases of a round -/

/-- The run of a round after the first guesses, by phases: first every observable value is pushed,
then the returned values are unified to the type `t`, and last types are copied onto the frame. -/
structure Phases (g : Graph) (skip : Bool) (p pushed unified q : Pass) (flows : List Action)
    (t : TypeId) (returns frames : List Action) : Prop where
  /-- The run of the first phase. -/
  flowRun : Run g skip p flows pushed
  /-- It consists of traversals. -/
  flow : FlowTrace g flows
  /-- Every observable value is entered. -/
  enters : ∀ v ∈ g.observables, .entered v v ∈ flows
  /-- The run of the second phase. -/
  returnRun : Run g skip pushed returns unified
  /-- It unifies returned values to one type. -/
  unifies : ReturnTrace g t returns
  /-- When it starts the type exists, and no returned value has a more specific one. -/
  least : returns ≠ [] → pushed.state.types.Has t ∧ ∀ v ∈ returnedValues g,
    (pushed.state.types.order t (pushed.state.temporary v)).isLE = true
  /-- The run of the third phase. -/
  frameRun : Run g skip unified frames q
  /-- It copies types onto the frame. -/
  frame : FrameTrace g frames
  /-- The types come from references into the frame. -/
  sources : Sourced g skip unified frames

/-- The part of a round after the first guesses consists of three runs. -/
theorem recover_phases (c : Config) (hg : g.WellFormed) {s : TypeState}
    (hs : (seedAll g { state := s }).state.Valid) :
    ∃ pushed unified flows t returns frames,
      Phases g (skipsMerges c g) (seedAll g { state := s }) pushed unified (recover c g s) flows t
        returns frames := by
  obtain ⟨flows, hflows, hflow, henters⟩ :=
    propagateAll_trace (skipsMerges c g) hg (seedAll g { state := s })
  have hpushed := hflows.valid hs
  rw [recover]
  generalize propagateAll g (skipsMerges c g) (seedAll g { state := s }) = pushed
    at hflows hpushed ⊢
  obtain ⟨t, returns, hreturns, hreturn, hleast⟩ : ∃ t as,
      Run g (skipsMerges c g) pushed as
        (if c.propagateAcrossReturns then unifyReturns g (skipsMerges c g) pushed else pushed) ∧
      ReturnTrace g t as ∧ (as ≠ [] → pushed.state.types.Has t ∧ ∀ v ∈ returnedValues g,
        (pushed.state.types.order t (pushed.state.temporary v)).isLE = true) := by
    split
    · exact unifyReturns_trace _ hg hpushed
    · exact ⟨0, [], .nil, .nil, fun h => absurd rfl h⟩
  have hunified := hreturns.valid hpushed
  generalize (if c.propagateAcrossReturns then unifyReturns g (skipsMerges c g) pushed
    else pushed) = unified at hreturns hunified ⊢
  obtain ⟨frames, hframes, hframe, hsources⟩ : ∃ as, Run g (skipsMerges c g) unified as
      (if c.propagateSpacebase then aliasFrame g (skipsMerges c g) unified else unified) ∧
      FrameTrace g as ∧ Sourced g (skipsMerges c g) unified as := by
    split
    · exact aliasFrame_trace _ hg hunified
    · exact ⟨[], .nil, .nil, .nil _ _⟩
  exact ⟨pushed, unified, flows, t, returns, frames, hflows, hflow, henters, hreturns, hreturn,
    hleast, hframes, hframe, hsources⟩

section Whole

variable {pushed unified : Pass} {flows returns frames : List Action} {t : Nat}

/-- The runs of the three phases follow one another. -/
theorem Phases.run (h : Phases g skip p pushed unified q flows t returns frames) :
    Run g skip p (flows ++ (returns ++ frames)) q :=
  h.flowRun.append (h.returnRun.append h.frameRun)

/-- What holds of all flow, of giving the common type to returned values and of giving types to
values of the frame holds of every action of a round. -/
theorem Phases.forall_action {P : Action → Prop}
    (h : Phases g skip p pushed unified q flows t returns frames)
    (hentered : ∀ root v, P (.entered root v)) (hoffered : ∀ r, P (.offered r))
    (hunified : ∀ v ∈ returnedValues g, P (.unified v t))
    (haliased : ∀ v u, FrameValue g v → P (.aliased v u)) :
    ∀ a ∈ flows ++ (returns ++ frames), P a := by
  have hflow {a : Action} (ha : a.IsFlow) : P a := by
    cases a with
    | entered root v => exact hentered root v
    | offered r => exact hoffered r
    | unified v u => exact ha.elim
    | aliased v u => exact ha.elim
  intro a ha
  rcases List.mem_append.mp ha with hpush | hrest
  · exact hflow (h.flow.isFlow a hpush)
  · rcases List.mem_append.mp hrest with hreturn | hframe
    · rcases h.unifies.kinds a hreturn with hpush | ⟨v, hv, rfl⟩
      · exact hflow hpush
      · exact hunified v hv
    · rcases h.frame.kinds a hframe with hpush | ⟨v, u, hv, rfl⟩
      · exact hflow hpush
      · exact haliased v u hv

/-- Types that values of the frame get come from references throughout a round. -/
theorem Phases.sourced (h : Phases g skip p pushed unified q flows t returns frames) :
    Sourced g skip p (flows ++ (returns ++ frames)) := by
  refine .append h.flowRun (sourced_of_not_mem skip p fun v piece hmem => ?_)
    (.append h.returnRun (sourced_of_not_mem skip pushed fun v piece hmem => ?_) h.sources)
  · exact h.flow.isFlow _ hmem
  · rcases h.unifies.kinds _ hmem with hflow | ⟨w, -, heq⟩
    · exact hflow
    · cases heq

/-- The edges of entered values are offered throughout a round. -/
theorem Phases.complete (h : Phases g skip p pushed unified q flows t returns frames) :
    Complete g (flows ++ (returns ++ frames)) :=
  h.flow.complete.append (h.unifies.complete.append h.frame.complete)

end Whole

end Recovery

end TypeRecovery
