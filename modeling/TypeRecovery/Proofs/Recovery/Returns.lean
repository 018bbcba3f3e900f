import TypeRecovery.Proofs.Recovery.Monotone

/-!
# The types of returned values

The returned values get the type of the canonical one in turn, and each pushes it on. No later turn
makes a value less specific than that type. A value that had its turn may still take a more
specific type along an edge, and then it keeps a type of its own.
-/

namespace TypeRecovery

/-- The type that an event gives to a value, and why. -/
def Event.change? (v : VarnodeId) : Event → Option (TypeId × Cause)
  | .entered _ _ => none
  | .changed w _ new cause => if w = v then some (new, cause) else none

/-- The last change of a value among events. -/
def lastChange? (v : VarnodeId) (events : List Event) : Option (TypeId × Cause) :=
  (events.filterMap (Event.change? v)).getLast?

/-- The last change is among the news, if they change the value. -/
theorem lastChange?_append (v : Nat) (events news : List Event) :
    lastChange? v (events ++ news) = (lastChange? v news).or (lastChange? v events) := by
  rw [lastChange?, List.filterMap_append, List.getLast?_append]
  rfl

/-- The last change of one event is its own. -/
theorem lastChange?_singleton (v : Nat) (e : Event) : lastChange? v [e] = e.change? v := by
  rw [lastChange?, List.filterMap_cons]
  cases e.change? v <;> rfl

/-- The last change is an event. -/
theorem mem_of_lastChange? {v t : Nat} {cause : Cause} {events : List Event}
    (h : lastChange? v events = some (t, cause)) : ∃ old, .changed v old t cause ∈ events := by
  obtain ⟨e, he, hchange⟩ := List.mem_filterMap.mp (List.mem_of_getLast? h)
  cases e with
  | entered root w => cases hchange
  | changed w old new cause' =>
    rw [Event.change?] at hchange
    split at hchange
    · rename_i hw
      cases hchange
      exact ⟨old, hw ▸ he⟩
    · cases hchange

namespace Recovery

open TypeTable TypeState

variable {g : Graph} {skip : Bool} {p q : Pass} {a : Action} {as : List Action} {t v : Nat}

/-! ## The last change of a value -/

/-- After an action a value has the type of the last change among its news, or the type that it had.
-/
theorem temporary_act_eq (skip : Bool) (hp : p.state.Valid) (ha : a.Enabled g p)
    (hv : v < p.state.values.size) :
    ∃ news, (act g skip p a).events.toList = p.events.toList ++ news ∧
      (act g skip p a).state.temporary v =
        ((lastChange? v news).map Prod.fst).getD (p.state.temporary v) := by
  rcases act_cases skip hp ha with hquiet | ⟨w, t, cause, hwrites⟩
  · have hevents := hquiet.events
    have htemp := hquiet.learns.temporary v
    cases a with
    | entered root w =>
      refine ⟨[.entered root w], by rw [hevents, Array.toList_push], htemp⟩
    | offered r => exact ⟨[], by rw [hevents, List.append_nil], htemp⟩
    | unified w u => exact ⟨[], by rw [hevents, List.append_nil], htemp⟩
    | aliased w u => exact ⟨[], by rw [hevents, List.append_nil], htemp⟩
  · obtain ⟨s, hs, hstate⟩ := hwrites.state
    refine ⟨_, by rw [hwrites.events, Array.toList_push], ?_⟩
    rw [lastChange?_singleton, Event.change?, hstate, temporary_setTemporary, hs.temporary,
      hs.values]
    by_cases hw : v = w
    · rw [if_pos ⟨hw, hw ▸ hv⟩, if_pos hw.symm]
      rfl
    · rw [if_neg fun h => hw h.1, if_neg (Ne.symm hw)]
      rfl

/-- After a run a value has the type of its last change. -/
theorem Run.temporary_eq_lastChange (h : Run g skip p as q) (hp : p.state.Valid)
    (hv : v < p.state.values.size) :
    ∃ news, q.events.toList = p.events.toList ++ news ∧
      q.state.temporary v = ((lastChange? v news).map Prod.fst).getD (p.state.temporary v) := by
  induction h with
  | nil => exact ⟨[], (List.append_nil _).symm, rfl⟩
  | @cons p q a rest ha hrest ih =>
    obtain ⟨first, hfirst, htemp⟩ := temporary_act_eq skip hp ha hv
    obtain ⟨news, hnews, hfinal⟩ := ih (act_valid skip hp ha)
      (by rw [(act_later skip hp ha).size]; exact hv)
    refine ⟨first ++ news, by rw [hnews, hfirst, List.append_assoc], ?_⟩
    rw [hfinal, htemp, lastChange?_append]
    cases lastChange? v news with
    | none => rfl
    | some change => rfl

/-- While returned values are unified to a type, a change installs that type or is the taking of a
type along an edge. -/
theorem Run.cause_of_isReturn (h : Run g skip p as q) (hp : p.state.Valid)
    (hk : ∀ a ∈ as, a.IsReturn t) {news : List Event}
    (hnews : q.events.toList = p.events.toList ++ news) {old new : Nat} {cause : Cause}
    (hmem : .changed v old new cause ∈ news) :
    new = t ∨ ∃ o inSlot outSlot, cause = .edge o inSlot outSlot := by
  obtain ⟨a, ha, m, hwrites⟩ := h.exists_writes hp hnews hmem
  have hcauses := hwrites.causes
  have hkind := hk a ha
  cases a with
  | entered root w => cases hcauses
  | offered r => exact Or.inr ⟨_, _, _, hcauses⟩
  | unified w u =>
    obtain ⟨-, rfl, -⟩ := hcauses
    exact Or.inl hkind.type_eq
  | aliased w u =>
    rcases hkind with hflow | ⟨x, hx⟩
    · cases hflow
    · cases hx

/-- A value that has the common type at some moment of the unification has it in the end, or it
ends with a more specific type that it took along an edge. -/
theorem Run.common_iff {m : Pass} {bs : List Action} {news : List Event}
    (h : Run g skip p as m) (hp : p.state.Valid) (hv : v < p.state.values.size)
    (ht : m.state.temporary v = t) (h' : Run g skip m bs q) (hk : ∀ a ∈ bs, a.IsReturn t)
    (hnews : q.events.toList = p.events.toList ++ news) :
    (q.state.temporary v = t ∨ q.state.types.moreSpecific (q.state.temporary v) t = true) ∧
      (q.state.temporary v = t ↔
        ¬∃ u o inSlot outSlot, lastChange? v news = some (u, .edge o inSlot outSlot) ∧
          q.state.types.moreSpecific u t = true) := by
  have hm := h.valid hp
  have hvm : v < m.state.values.size := by
    rw [(h.later hp).size]
    exact hv
  have hle : (q.state.types.order (q.state.temporary v) t).isLE = true := by
    apply h'.isLE hm (fun w u hu => (hk _ hu).type_eq) (.refl _)
    rw [ht, order_self]
    rfl
  have hspecific (hne : q.state.temporary v ≠ t) :
      q.state.types.moreSpecific (q.state.temporary v) t = true :=
    (moreSpecific_iff ..).mpr (order_lt_of_isLE hle hne)
  obtain ⟨front, hfront⟩ := h.events_append hp
  obtain ⟨back, hback, htemp⟩ := h'.temporary_eq_lastChange hm hvm
  obtain ⟨all, hall, htotal⟩ := (h.append h').temporary_eq_lastChange hp hv
  obtain rfl : all = news := List.append_cancel_left (hall.symm.trans hnews)
  obtain rfl : front ++ back = all := by
    apply List.append_cancel_left
    rw [← hall, hback, hfront, List.append_assoc]
  refine ⟨or_iff_not_imp_left.mpr hspecific, ?_, ?_⟩
  · rintro heq ⟨u, o, inSlot, outSlot, hlast, hmore⟩
    rw [hlast] at htotal
    exact ne_of_order_lt ((moreSpecific_iff ..).mp hmore) (htotal.symm.trans heq)
  · intro hnot
    by_contra hne
    cases hlast : lastChange? v back with
    | none =>
      rw [hlast] at htemp
      exact hne (htemp.trans ht)
    | some change =>
      obtain ⟨u, cause⟩ := change
      rw [hlast] at htemp
      have hu : q.state.temporary v = u := htemp
      obtain ⟨old, hmem⟩ := mem_of_lastChange? hlast
      rcases h'.cause_of_isReturn hm hk hback hmem with rfl | ⟨o, inSlot, outSlot, rfl⟩
      · exact hne hu
      · refine hnot ⟨u, o, inSlot, outSlot, ?_, hu ▸ hspecific hne⟩
        rw [lastChange?_append, hlast]
        rfl

/-! ## The turns of returned values -/

/-- The canonical value is returned at its position. -/
theorem mostSpecificFrom_getElem? {s : TypeState} {all l : List VarnodeId} {index : Nat}
    {best : Option (Nat × VarnodeId)} (hl : ∀ k, all[index + k]? = l[k]?)
    (hbest : ∀ i b, best = some (i, b) → all[i]? = some b) {i b : Nat}
    (h : mostSpecificFrom s index best l = some (i, b)) : all[i]? = some b := by
  induction l generalizing index best with
  | nil => exact hbest i b h
  | cons x rest ih =>
    have hx : all[index]? = some x := hl 0
    have hrest (k : Nat) : all[index + 1 + k]? = rest[k]? := by
      rw [Nat.add_assoc, Nat.add_comm 1]
      exact hl (k + 1)
    have hfirst : ∀ j c, some (index, x) = some (j, c) → all[j]? = some c := by
      rintro j c ⟨⟩
      exact hx
    cases best with
    | none => exact ih hrest hfirst h
    | some best =>
      rw [mostSpecificFrom] at h
      split at h
      · exact ih hrest hfirst h
      · exact ih hrest hbest h

/-- The canonical value is the returned value at the position that is found. -/
theorem returned_canonical {s : TypeState} {i canonical : Nat}
    (h : mostSpecificFrom s 0 none (returnedValues g) = some (i, canonical)) :
    (returnedValues g)[i]? = some canonical :=
  mostSpecificFrom_getElem? (fun k => by rw [Nat.zero_add]) (fun _ _ h => by cases h) h

/-- Every other returned value has its turn. -/
theorem mem_eraseIdx_of_ne_canonical {s : TypeState} {i canonical : Nat}
    (h : mostSpecificFrom s 0 none (returnedValues g) = some (i, canonical))
    (hv : v ∈ returnedValues g) (hne : v ≠ canonical) : v ∈ (returnedValues g).eraseIdx i := by
  obtain ⟨j, hj⟩ := List.getElem?_of_mem hv
  refine List.mem_eraseIdx_iff_getElem?.mpr ⟨j, ?_, hj⟩
  rintro rfl
  exact hne (Option.some.inj (hj.symm.trans (returned_canonical h)))

/-- A returned value that is to share the type of the canonical one. -/
structure Joins (g : Graph) (s : TypeState) (canonical v : VarnodeId) : Prop where
  /-- The value is returned. -/
  returned : v ∈ returnedValues g
  /-- It is as long as the canonical one. -/
  size : (g.varnode v).size = (g.varnode canonical).size
  /-- Its type is not fixed. -/
  unlocked : s.locked v = false
  /-- It can only be zero or one if the canonical one is a truth value. -/
  boolean : s.types.metatype (s.temporary canonical) = .bool → (g.varnode v).mask ≤ 1

/-- After its turn a value that is free to take the type of the canonical one has it, or it had it
and pushed it on. -/
theorem unifyReturn_turn (skip : Bool) (hg : g.WellFormed)
    (hhas : p.state.types.Has t) (hsize : p.state.values.size = g.varnodes.size)
    (hv : v < g.varnodes.size) (hlocked : p.state.locked v = false)
    (hbool : p.state.types.metatype t = .bool → (g.varnode v).mask ≤ 1) :
    ∃ m as bs, Run g skip p as m ∧ m.state.temporary v = t ∧
      Run g skip m bs (unifyReturn g skip t (g.varnode v).size p v) ∧
      ∀ a ∈ bs, a.IsReturn t := by
  have hfree : ¬((g.varnode v).size ≠ (g.varnode v).size ∨ p.state.locked v = true) := by
    rw [hlocked]
    simp
  have hmask : ¬(p.state.types.metatype t = .bool ∧ 1 < (g.varnode v).mask) :=
    fun h => UInt64.not_lt.mpr (hbool h.1) h.2
  rw [unifyReturn, if_neg hfree, if_neg hmask]
  split
  · rename_i hsame
    exact ⟨p, [], [], .nil, hsame, .nil, fun _ ha => by cases ha⟩
  · rename_i hne
    obtain ⟨bs, hrun, hflow⟩ := propagate_trace skip hg (p.setTemporary v t .unifiedReturn) hv
    refine ⟨_, [.unified v t], _, .cons ⟨hhas, hlocked, hne, hmask⟩ .nil, ?_, hrun,
      fun a ha => Or.inl (hflow.isFlow a ha)⟩
    rw [act, Pass.state_setTemporary, temporary_setTemporary, if_pos ⟨rfl, hsize ▸ hv⟩]

/-- The returned values in question are unified by a run. -/
theorem unifyReturn_foldl_run (skip : Bool) (hg : g.WellFormed) (hp : p.state.Valid)
    (hhas : p.state.types.Has t) (size : Nat) {todo : List VarnodeId}
    (htodo : ∀ v ∈ todo, v ∈ returnedValues g) :
    ∃ as, Run g skip p as (todo.foldl (unifyReturn g skip t size) p) ∧
      ∀ a ∈ as, a.IsReturn t := by
  obtain ⟨as, hrun, htrace⟩ := foldl_trace skip (g := g) (f := unifyReturn g skip t size)
    (fun _ => .nil) (fun _ _ _ _ _ => ReturnTrace.append) (fun _ _ _ hP hrun => hrun.keeps_has hP)
    (fun q hq v hv => unifyReturn_trace skip hg hq.2 (htodo v hv) size) ⟨hp, hhas⟩
  exact ⟨as, hrun, htrace.isReturn⟩

/-- From the turn of a value on, the unification is a run in which it starts with the common type.
-/
theorem unifyReturns_turn (skip : Bool) (hg : g.WellFormed) (hp : p.state.Valid)
    (hsize : p.state.values.size = g.varnodes.size) (hfree : g.prototype.outputLocked = false)
    {i canonical : Nat}
    (hbest : mostSpecificFrom p.state 0 none (returnedValues g) = some (i, canonical))
    (hv : v = canonical ∨ Joins g p.state canonical v) :
    ∃ m as bs, Run g skip p as m ∧
      m.state.temporary v = p.state.temporary canonical ∧
      Run g skip m bs (unifyReturns g skip p) ∧
      ∀ a ∈ bs, a.IsReturn (p.state.temporary canonical) := by
  have hreturned : ∀ w ∈ (returnedValues g).eraseIdx i, w ∈ returnedValues g :=
    fun w hw => List.mem_of_mem_eraseIdx hw
  have hhas := hp.temporary canonical
  have hq : unifyReturns g skip p = ((returnedValues g).eraseIdx i).foldl
      (unifyReturn g skip (p.state.temporary canonical) (g.varnode canonical).size) p := by
    rw [unifyReturns, hfree, hbest]
    rfl
  rw [hq]
  by_cases hcanonical : v = canonical
  · obtain ⟨bs, hrun, hk⟩ :=
      unifyReturn_foldl_run skip hg hp hhas (g.varnode canonical).size hreturned
    exact ⟨p, [], bs, .nil, by rw [hcanonical], hrun, hk⟩
  · have hjoins := hv.resolve_left hcanonical
    have hmem := mem_eraseIdx_of_ne_canonical hbest hjoins.returned hcanonical
    obtain ⟨before, after, hsplit⟩ := List.append_of_mem hmem
    rw [hsplit] at hreturned ⊢
    rw [List.foldl_append, List.foldl_cons]
    -- the turns before, the turn of the value, and the turns after it
    obtain ⟨as, hrun, -⟩ := unifyReturn_foldl_run skip hg hp hhas (g.varnode canonical).size
      (fun w hw => hreturned w (List.mem_append_left _ hw))
    generalize before.foldl _ p = n at hrun ⊢
    have hn := hrun.keeps_has ⟨hp, hhas⟩
    have hlater := hrun.later hp
    obtain ⟨o, -, hinput⟩ := mem_inputs_of_mem_returnedValues hjoins.returned
    obtain ⟨m, bs, cs, hturn, htemp, hpush, hk⟩ := unifyReturn_turn skip hg hn.2
      (hlater.size.trans hsize) (hg.lt_of_mem_inputs hinput)
      ((hlater.locked v).trans hjoins.unlocked)
      (by rw [hlater.types.extends.metatype hhas]; exact hjoins.boolean)
    rw [hjoins.size] at hpush
    have hafter := (hturn.append hpush).keeps_has hn
    obtain ⟨ds, hrest, hk'⟩ := unifyReturn_foldl_run skip hg hafter.1 hafter.2
      (g.varnode canonical).size
      (fun w hw => hreturned w (List.mem_append_right _ (List.mem_cons_of_mem v hw)))
    exact ⟨m, as ++ bs, cs ++ ds, hrun.append hturn, htemp, hpush.append hrest,
      fun a ha => (List.mem_append.mp ha).elim (hk a) (hk' a)⟩

/-- Two values are returned: an input, and what is loaded through it, which is compared with a
locked `s * *`. -/
def loadedReturn : Routine :=
  let types := (TypeTable.empty 8).perform (.base 4 .int)
    |>.perform (.struct "s" 16 [⟨0, "a", 0⟩]) |>.perform (.pointer 1 1) |>.perform (.pointer 2 1)
  let values := (Routine.empty "f" .simple 2 types).newInput 8 ⟨1, 0⟩ |>.newConstant 8 1
    |>.newInput 8 ⟨1, 8⟩ |>.newVarnode 8 ⟨1, 16⟩ |>.newVarnode 1 ⟨1, 24⟩
  (values.modifyState (·.lock 0 3)).modifyGraph fun g =>
    g.linkOp { opcode := .load, address := ⟨1, 0⟩, inputs := [1, 2], output := some 3 }
      |>.linkOp { opcode := .intEqual, address := ⟨1, 1⟩, inputs := [0, 3], output := some 4 }
      |>.linkOp { opcode := .ret, address := ⟨1, 2⟩, inputs := [1, 3], output := none }
      |>.linkOp { opcode := .ret, address := ⟨1, 3⟩, inputs := [1, 2], output := none }

/-- The pass over this function when its types were pushed. -/
def pushedReturn : Pass := propagateAll loadedReturn.graph false loadedReturn.guessed

/-- After the unification a returned value that was to share the type of the canonical one has that
type or a more specific one. It has a more specific one exactly if its last change was to take one
along an edge. -/
theorem unifyReturns_common_iff (skip : Bool) (hg : g.WellFormed) (hp : p.state.Valid)
    (hsize : p.state.values.size = g.varnodes.size) (hfree : g.prototype.outputLocked = false)
    {i canonical : Nat}
    (hbest : mostSpecificFrom p.state 0 none (returnedValues g) = some (i, canonical)) :
    let q := unifyReturns g skip p
    let common := p.state.temporary canonical
    ∃ news, q.events.toList = p.events.toList ++ news ∧
      ∀ v, v = canonical ∨ Joins g p.state canonical v →
        (q.state.temporary v = common ∨
          q.state.types.moreSpecific (q.state.temporary v) common = true) ∧
        (q.state.temporary v = common ↔
          ¬∃ t o inSlot outSlot, lastChange? v news = some (t, .edge o inSlot outSlot) ∧
            q.state.types.moreSpecific t common = true) := by
  intro q common
  obtain ⟨m, as, bs, hrun, -, hrest, -⟩ :=
    unifyReturns_turn skip hg hp hsize hfree hbest (Or.inl rfl)
  obtain ⟨news, hnews⟩ := (hrun.append hrest).events_append hp
  refine ⟨news, hnews, fun v hv => ?_⟩
  have hreturned : v ∈ returnedValues g :=
    hv.elim (fun h => h ▸ List.mem_of_getElem? (returned_canonical hbest)) Joins.returned
  have hlt : v < p.state.values.size := by
    obtain ⟨o, -, hinput⟩ := mem_inputs_of_mem_returnedValues hreturned
    rw [hsize]
    exact hg.lt_of_mem_inputs hinput
  obtain ⟨m, as, bs, hrun, htemp, hrest, hk⟩ := unifyReturns_turn skip hg hp hsize hfree hbest hv
  exact hrun.common_iff hp hlt htemp hrest hk hnews

/-- The load is the canonical value. The input gets its type `s * *` and pushes it through the load,
which takes the more specific `s *`: the two returned values end with different types. -/
theorem loadedReturn_common :
    let g := loadedReturn.graph
    let common := pushedReturn.state.temporary 3
    let q := unifyReturns g false pushedReturn
    mostSpecificFrom pushedReturn.state 0 none (returnedValues g) = some (0, 3) ∧
      Joins g pushedReturn.state 3 2 ∧
      q.state.temporary 2 = common ∧ q.state.temporary 3 ≠ common ∧
      ∃ news, q.events.toList = pushedReturn.events.toList ++ news ∧
        ∃ t o inSlot outSlot, lastChange? 3 news = some (t, .edge o inSlot outSlot) ∧
          q.state.types.moreSpecific t common = true := by
  have hr : loadedReturn.WellFormed := by decide +kernel
  have hpos : 0 < loadedReturn.graph.varnodes.size := by decide +kernel
  have hguessed := (hr.guessed_later hpos).2
  obtain ⟨as, hrun, -⟩ := propagateAll_trace false hr.graph loadedReturn.guessed
  have hp : pushedReturn.state.Valid := hrun.valid hguessed
  have hsize : pushedReturn.state.values.size = loadedReturn.graph.varnodes.size := by
    rw [pushedReturn, (hrun.later hguessed).size, hr.size_guessed hpos]
  have hbest : mostSpecificFrom pushedReturn.state 0 none (returnedValues loadedReturn.graph) =
      some (0, 3) := by decide +kernel
  have hjoins : Joins loadedReturn.graph pushedReturn.state 3 2 :=
    ⟨by decide +kernel, by decide +kernel, by decide +kernel, by decide +kernel⟩
  have hinput : (unifyReturns loadedReturn.graph false pushedReturn).state.temporary 2 =
      pushedReturn.state.temporary 3 := by decide +kernel
  have hload : (unifyReturns loadedReturn.graph false pushedReturn).state.temporary 3 ≠
      pushedReturn.state.temporary 3 := by decide +kernel
  obtain ⟨news, hnews, hcommon⟩ :=
    unifyReturns_common_iff false hr.graph hp hsize (by decide +kernel) hbest
  have htaken := not_not.mp (mt (hcommon 3 (Or.inl rfl)).2.mpr hload)
  exact ⟨hbest, hjoins, hinput, hload, news, hnews, htaken⟩

end Recovery

end TypeRecovery
