import TypeRecovery.Proofs.Transfer.Settled
import TypeRecovery.Proofs.Recovery.Monotone

/-!
# Edges that carry nothing more

A traversal goes on from a value only when it enters the value, and it enters each value once. So
when a round is over an edge may still carry a more specific type to its destination, if something
happened since its source was entered for the last time. An edge that was offered is closed, and few
events open it again: its source gets another type, its destination gets a less specific type as a
returned value, the destination of a load or a store gets a type of another size, or a constant that
is added to its source is no longer a pointer.
-/

namespace TypeRecovery

namespace Recovery

open TypeTable TypeState

variable {g : Graph} {skip : Bool} {p q : Pass} {a : Action} {as : List Action} {r : EdgeRef}
  {s s' : TypeState} {T : TypeTable} {o v dest : Nat} {slot : Slot}

/-- The edges of a value leave slots that hold the value. -/
theorem at?_of_mem_edges (hg : g.WellFormed) (h : r ∈ edges g v) :
    (g.op r.op).at? r.inSlot = some v := by
  rw [edges, List.mem_append, List.mem_flatMap] at h
  rcases h with ⟨o, -, hr⟩ | hdef
  · rw [readerEdges] at hr
    cases hslot : (g.op o).slotOf? v with
    | none => rw [hslot] at hr; cases hr
    | some index =>
      have hin : (g.op o).at? (.input index) = some v := Graph.input?_of_slotOf? hslot
      rw [hslot] at hr
      dsimp only at hr
      rcases List.mem_append.mp hr with hout | hinputs
      · split at hout
        · rw [List.mem_singleton.mp hout]
          exact hin
        · cases hout
      · obtain ⟨i, -, rfl⟩ := List.mem_map.mp hinputs
        exact hin
  · cases hd : (g.varnode v).definition with
    | none => rw [hd] at hdef; cases hdef
    | some o =>
      rw [hd] at hdef
      obtain ⟨i, -, rfl⟩ := List.mem_map.mp hdef
      exact (hg.writes o v).mpr hd

/-- Whether an offer is taken is what its verdict says. -/
theorem taken_offer (p : Pass) (r : EdgeRef) :
    (offer g skip p r).taken = (judge g skip p.state r).taken.isSome := by
  rw [offer_eq]
  cases (judge g skip p.state r).taken <;> rfl

/-! ## Resolved slots -/

/-- Resolving what flows out of one slot leaves the choices at other slots alone. -/
theorem choice?_flowingType_ne (s : TypeState) (w : Nat) {o' : Nat} {slot' : Slot}
    (hne : ¬(o = o' ∧ slot = slot')) :
    (flowingType s w o' slot').2.choice? o slot = s.choice? o slot := by
  have hchoose (union : Nat) :
      (chooseField s union o' slot').2.choice? o slot = s.choice? o slot := by
    rw [chooseField]
    cases s.choice? o' slot' with
    | some field => rfl
    | none =>
      dsimp only
      cases s.types.bestUnionField? union (s.types.size union) with
      | none => rfl
      | some field => rw [choice?_choose, if_neg hne]
  rw [flowingType]
  split
  · rw [resolveUnion]
    dsimp only
    split
    · exact hchoose _
    · split
      · exact hchoose _
      · exact hchoose _
  · rfl

/-- The type that flows out of a slot is already resolved. -/
def Resolved (s : TypeState) (v o : Nat) (slot : Slot) : Prop := (flowingType s v o slot).2 = s

/-- A resolved slot keeps its choice when an action is performed. -/
theorem act_choice? (skip : Bool) (hp : p.state.Valid) (hat : (g.op o).at? slot = some v)
    (hresolved : Resolved p.state v o slot) (a : Action) :
    (act g skip p a).state.choice? o slot = p.state.choice? o slot := by
  cases a with
  | entered root w => rfl
  | unified w t => rw [act, Pass.state_setTemporary]; rfl
  | aliased w t => rw [act, Pass.state_setTemporary]; rfl
  | offered r =>
    have hjudge : (judge g skip p.state r).state.choice? o slot = p.state.choice? o slot := by
      rcases slots_cases g r with ⟨source, dest, hin, hout⟩ | hmissing
      · rw [choice?, choices_judge skip hin hout]
        by_cases hsame : o = r.op ∧ slot = r.inSlot
        · obtain ⟨rfl, rfl⟩ := hsame
          obtain rfl := Option.some.inj (hat.symm.trans hin)
          rw [hresolved]
          rfl
        · exact choice?_flowingType_ne p.state source hsame
      · rw [judge_of_missing hmissing]
    rcases act_offered g skip hp r with ⟨-, -, hstate⟩ | ⟨w, t, -, hstate, -⟩
    · rw [hstate, hjudge]
    · rw [hstate]
      exact hjudge

/-! ## Closed edges -/

/-- An offer along the edge would not be taken, and would add no type and no choice. -/
def Closed (g : Graph) (skip : Bool) (s : TypeState) (r : EdgeRef) : Prop :=
  judge g skip s r = ⟨none, s⟩

/-- The slot that a closed edge comes from is resolved. -/
theorem Closed.resolved (h : Closed g skip s r) (hs : s.Valid)
    (hin : (g.op r.op).at? r.inSlot = some v) (hout : (g.op r.op).at? r.outSlot = some dest) :
    Resolved s v r.op r.inSlot := by
  have hflow := (flowingType_learns hs v r.op r.inSlot).1
  have hback := flow_learns_judge skip hs hin hout
  have hchoices := choices_judge skip (s := s) hin hout
  rw [show judge g skip s r = ⟨none, s⟩ from h] at hback hchoices
  have htypes := hflow.types.extends.antisymm hback.types.extends
  have hvalues := hflow.values
  rw [Resolved]
  generalize (flowingType s v r.op r.inSlot).2 = s₁ at htypes hvalues hchoices ⊢
  cases s
  cases s₁
  cases htypes
  cases hvalues
  cases hchoices
  rfl

/-- An offer that was taken closes its edge while its source and its destination keep their types.
-/
theorem judge_settled (hs : s.Valid) {t : Nat} (h : (judge g skip s r).taken = some (dest, t))
    (hin : (g.op r.op).at? r.inSlot = some v) (hv : s'.temporary v = s.temporary v)
    (hdest : s'.temporary dest = t) (hu : (judge g skip s r).state.types.Extends s'.types)
    (hc : s'.choice? r.op r.inSlot = (judge g skip s r).state.choice? r.op r.inSlot) :
    Closed g skip s' r := by
  have htaken := judge_taken hs h
  have hout := htaken.slot
  have hext := (flow_learns_judge skip hs hin hout).types.extends.trans hu
  obtain ⟨hflow, hhas⟩ := flowingType_learns hs v r.op r.inSlot
  have hvalid := hflow.valid hs
  have hagain := flowingType_again hs hext hv fun _ => by
    rw [hc, choice?, choices_judge skip hin hout]
    rfl
  have hne := ne_of_order_lt htaken.order
  rw [judge_of_slots hin hout] at h hu
  rw [Closed, judge_of_slots hin hout, hagain]
  generalize flowingType s v r.op r.inSlot = flow at h hu hflow hhas hvalid hext ⊢
  dsimp only at h hu ⊢
  split
  · split at h
    · rename_i hadmits
      rw [if_pos hadmits] at hu
      cases ht : Transfer.transfer g flow.2 (edgeOf g r v dest flow.1) with
      | none => rw [ht] at h; cases h
      | some new =>
        rw [ht] at h hu
        dsimp only at h hu
        split at h
        · cases h
          rw [Transfer.transfer_settled hvalid hhas hout ht (by rw [hflow.temporary]; exact hne) hu
            hdest]
          simp only [Interned.into, hdest, moreSpecific_iff, order_self]
          rfl
        · cases h
    · cases h
  · rfl

/-- The destination of an edge holds a type that is at least as specific as before, and of the same
size if the op is a load or a store. -/
structure Sharpened (g : Graph) (r : EdgeRef) (dest : VarnodeId) (s s' : TypeState) : Prop where
  /-- The new type is at least as specific. -/
  order : (s'.types.order (s'.temporary dest) (s.temporary dest)).isLE = true
  /-- Loads and stores find the size that they found before. -/
  size : (g.op r.op).opcode = .load ∨ (g.op r.op).opcode = .store →
    s'.types.size (s'.temporary dest) = s.types.size (s.temporary dest)

/-- A value that keeps its type asks no more of its edges. -/
theorem Sharpened.of_eq (hs : s.Valid) (hu : s.types.Extends s'.types)
    (h : s'.temporary dest = s.temporary dest) : Sharpened g r dest s s' where
  order := by
    rw [h, order_self]
    rfl
  size _ := by rw [h, hu.size (hs.temporary dest)]

/-- What is not more specific than the type of a value is not more specific once that is sharpened.
-/
theorem Sharpened.not_moreSpecific (h : Sharpened g r dest s s') (hs : s.Valid)
    (hu : s.types.Extends s'.types) {t : Nat} (ht : s.types.Has t)
    (hnot : ¬s.types.moreSpecific t (s.temporary dest) = true) :
    ¬s'.types.moreSpecific t (s'.temporary dest) = true := by
  intro hmore
  apply hnot
  rw [moreSpecific_iff] at hmore ⊢
  rw [← hu.order hs.types ht (hs.temporary dest)]
  exact Std.TransCmp.lt_of_lt_of_isLE hmore h.order

/-- A closed edge stays closed while its source keeps its type and its choice and its destination is
only sharpened. -/
theorem Closed.sharpened (h : Closed g skip s r) (hs : s.Valid)
    (hin : (g.op r.op).at? r.inSlot = some v) (hout : (g.op r.op).at? r.outSlot = some dest)
    (hu : s.types.Extends s'.types) (hv : s'.temporary v = s.temporary v)
    (hc : s'.choice? r.op r.inSlot = s.choice? r.op r.inSlot)
    (hlocked : s'.locked dest = s.locked dest) (hblocked : s'.blocked dest = s.blocked dest)
    (hdest : Sharpened g r dest s s')
    (hkeeps : ∀ t, Transfer.KeepsAddend g s s' (edgeOf g r v dest t)) :
    Closed g skip s' r := by
  have hresolved := h.resolved hs hin hout
  have hhas := (flowingType_learns hs v r.op r.inSlot).2
  have hagain := flowingType_again hs (by rw [hresolved]; exact hu) hv
    fun _ => by rw [hresolved]; exact hc
  rw [Closed, judge_of_slots hin hout] at h ⊢
  rw [hagain]
  dsimp only at h ⊢
  rw [hresolved] at h hhas
  generalize (flowingType s v r.op r.inSlot).1 = type at h hhas ⊢
  rw [admits_again (s := s) hlocked hblocked (hu.metatype hhas)]
  split
  · rename_i hadmits
    rw [if_pos hadmits] at h
    have hcarries := Transfer.transfer_sharpened (g := g) (e := edgeOf g r v dest type) hs hhas hu
      hdest.size (hkeeps type) hout fun i hi => by
        rw [hi] at h
        have htable := congrArg (fun x => x.state.types) h
        dsimp only [types_withTypes] at htable
        rw [htable]
        exact hu
    rcases hcarries with hsame | hheld
    · -- the edge carries what it carried before, which was not more specific
      rw [hsame]
      cases ht : Transfer.transfer g s (edgeOf g r v dest type) with
      | none => rfl
      | some new =>
        rw [ht] at h
        have htable : new.table = s.types := congrArg (fun x => x.state.types) h
        have hold : ¬s.types.moreSpecific new.id (s.temporary dest) = true := by
          intro hmore
          have htaken := congrArg Verdict.taken h
          dsimp only at htaken
          rw [htable, if_pos hmore] at htaken
          cases htaken
        have hnew := (Transfer.gives_transfer hs hhas ht).has
        rw [htable] at hnew
        simp only [Option.map_some, Interned.into]
        rw [if_neg (hdest.not_moreSpecific hs hu hnew hold)]
        rfl
    · -- the edge carries the type that the destination holds
      rw [hheld]
      simp only [edgeOf, moreSpecific_iff, order_self]
      rfl
  · rfl

/-- An offer closes its edge, unless it changes its own source. -/
theorem closed_of_offered (hp : p.state.Valid) (hin : (g.op r.op).at? r.inSlot = some v)
    (hsize : ∀ w, (g.op r.op).Touches w → w < p.state.values.size)
    (hv : (act g skip p (.offered r)).state.temporary v = p.state.temporary v) :
    Closed g skip (act g skip p (.offered r)).state r := by
  rcases act_offered g skip hp r with
    ⟨hnone, hquiet, hstate⟩ | ⟨w, t, htaken, hstate, hwrites⟩
  · rw [hstate, Closed]
    have hagain : judge g skip (judge g skip p.state r).state r = _ := judge_again hp
      (fun x _ => by rw [← hstate, hquiet.learns.temporary])
      (fun x => by rw [← hstate, hquiet.learns.locked])
      (fun x => by rw [← hstate, hquiet.learns.blocked]) (.refl _) fun _ _ _ => rfl
    rw [hagain, hnone]
  · have hout := (judge_taken hp htaken).slot
    have hnew := hwrites.temporary (hsize w (Op.touches_of_at? hout))
    rw [hstate] at hv hnew ⊢
    exact judge_settled hp htaken hin hv hnew (.refl _) rfl

/-- A commit changes nothing that an offer reads. -/
theorem Closed.commitAll (h : Closed g skip s r) (hs : s.Valid) :
    Closed g skip (commitAll g s).1 r := by
  obtain ⟨htypes, hchoices, -, hvalues⟩ := commitAll_frame g s
  have hu : s.types.Extends (Recovery.commitAll g s).1.types := by
    rw [htypes]
    exact .refl _
  rcases slots_cases g r with ⟨source, dest, hin, hout⟩ | hmissing
  · exact h.sharpened hs hin hout hu (hvalues source).1
      (by rw [TypeState.choice?, hchoices]; rfl) (hvalues dest).2.1 (hvalues dest).2.2
      (.of_eq hs hu (hvalues dest).1) fun _ _ _ k _ _ hptr => by
        rw [(hvalues k).1, hu.metatype (hs.temporary k)]
        exact hptr
  · rw [Closed, judge_of_missing hmissing]

/-! ## Events that open an edge -/

/-- An event after which an edge may carry more than before. -/
inductive Reopens (g : Graph) (types : TypeTable) (r : EdgeRef) : Event → Prop where
  /-- The source of the edge gets another type. -/
  | source {v : VarnodeId} {old new : TypeId} {cause : Cause} :
      (g.op r.op).at? r.inSlot = some v → Reopens g types r (.changed v old new cause)
  /-- The destination of the edge is a returned value and gets a less specific type. -/
  | blurred {v : VarnodeId} {old new : TypeId} :
      (g.op r.op).at? r.outSlot = some v → types.order old new = .lt →
      Reopens g types r (.changed v old new .unifiedReturn)
  /-- The destination of an edge of a load or a store gets a type of another size, and not along
  the edge itself. -/
  | resized {v : VarnodeId} {old new : TypeId} {cause : Cause} :
      (g.op r.op).at? r.outSlot = some v →
      (g.op r.op).opcode = .load ∨ (g.op r.op).opcode = .store →
      types.size new ≠ types.size old → cause ≠ .edge r.op r.inSlot r.outSlot →
      Reopens g types r (.changed v old new cause)
  /-- A constant that is added to the source of the edge was a pointer and is none any more. -/
  | addend {v : VarnodeId} {old new : TypeId} {cause : Cause} :
      (g.op r.op).opcode = .intAdd → r.outSlot = .output →
      Transfer.otherOperand? (g.op r.op) r.inSlot = some v → (g.varnode v).constant = true →
      types.metatype old = .ptr → types.metatype new ≠ .ptr →
      Reopens g types r (.changed v old new cause)

/-- The changes that reopen an edge are those of its source, of its end and of its addend. -/
theorem reopens_changed_iff {types : TypeTable} {w old new : Nat} {cause : Cause} :
    Reopens g types r (.changed w old new cause) ↔
      (g.op r.op).at? r.inSlot = some w ∨
      (g.op r.op).at? r.outSlot = some w ∧ cause = .unifiedReturn ∧ types.order old new = .lt ∨
      (g.op r.op).at? r.outSlot = some w ∧
        ((g.op r.op).opcode = .load ∨ (g.op r.op).opcode = .store) ∧
        types.size new ≠ types.size old ∧ cause ≠ .edge r.op r.inSlot r.outSlot ∨
      (g.op r.op).opcode = .intAdd ∧ r.outSlot = .output ∧
        Transfer.otherOperand? (g.op r.op) r.inSlot = some w ∧ (g.varnode w).constant = true ∧
        types.metatype old = .ptr ∧ types.metatype new ≠ .ptr := by
  constructor
  · intro h
    cases h with
    | source hin => exact Or.inl hin
    | blurred hout hless => exact Or.inr (Or.inl ⟨hout, rfl, hless⟩)
    | resized hout haccess hsize hcause =>
      exact Or.inr (Or.inr (Or.inl ⟨hout, haccess, hsize, hcause⟩))
    | addend hop hout hother hconstant hold hnew =>
      exact Or.inr (Or.inr (Or.inr ⟨hop, hout, hother, hconstant, hold, hnew⟩))
  · rintro (hin | ⟨hout, rfl, hless⟩ | ⟨hout, haccess, hsize, hcause⟩ |
      ⟨hop, hout, hother, hconstant, hold, hnew⟩)
    · exact .source hin
    · exact .blurred hout hless
    · exact .resized hout haccess hsize hcause
    · exact .addend hop hout hother hconstant hold hnew

instance (g : Graph) (types : TypeTable) (r : EdgeRef) : DecidablePred (Reopens g types r)
  | .entered _ _ => .isFalse (by rintro ⟨⟩)
  | .changed _ _ _ _ => decidable_of_iff' _ reopens_changed_iff

/-- Only an offer along an edge changes a value by that edge. -/
theorem eq_offered_of_causes {w t : Nat} (h : a.Causes w t (.edge r.op r.inSlot r.outSlot)) :
    a = .offered r := by
  cases a with
  | entered root x => cases h
  | offered r' =>
    cases r
    cases r'
    cases h
    rfl
  | unified x u => cases h.2.2
  | aliased x u => cases h.2.2

/-- An event that does not open a closed edge leaves its destination alone or sharpens it. -/
theorem Closed.sharpened_of_writes (h : Closed g skip p.state r) (hp : p.state.Valid)
    (ha : a.Enabled g p) (hout : (g.op r.op).at? r.outSlot = some dest)
    (hT : (act g skip p a).state.types.Extends T) {w t : Nat} {cause : Cause}
    (hwrites : Writes g p (act g skip p a) a w t cause)
    (hevent : ¬Reopens g T r (.changed w (p.state.temporary w) t cause)) :
    Sharpened g r dest p.state (act g skip p a).state := by
  have hext := (act_later skip hp ha).types.extends
  obtain ⟨s₁, hs₁, hstate⟩ := hwrites.state
  have htemp : (act g skip p a).state.temporary dest =
      if dest = w ∧ w < s₁.values.size then t else p.state.temporary dest := by
    rw [hstate, temporary_setTemporary, hs₁.temporary]
  split at htemp
  · rename_i hw
    obtain ⟨rfl, -⟩ := hw
    have hold := hext.has (hp.temporary dest)
    refine ⟨?_, fun haccess => ?_⟩
    · rw [htemp]
      by_cases hreturn : cause = .unifiedReturn
      · subst hreturn
        apply isLE_of_order_ne_lt
        rw [← hT.order (act_valid skip hp ha).types hold hwrites.has]
        exact fun hlt => hevent (.blurred hout hlt)
      · rw [hwrites.order hreturn]
        rfl
    · have hcause : cause ≠ .edge r.op r.inSlot r.outSlot := by
        -- a closed edge does not change its destination
        rintro rfl
        obtain rfl := eq_offered_of_causes hwrites.causes
        have hoffered := act_offered g skip hp r
        rw [show judge g skip p.state r = ⟨none, p.state⟩ from h] at hoffered
        rcases hoffered with ⟨-, hquiet, -⟩ | ⟨_, _, hnone, -⟩
        · exact absurd (congrArg Array.size (hquiet.events.symm.trans hwrites.events)) (by simp)
        · cases hnone
      by_contra hsize
      apply hevent
      refine .resized hout haccess ?_ hcause
      rw [hT.size hwrites.has, (hext.trans hT).size (hp.temporary dest), ← htemp]
      exact hsize
  · exact .of_eq hp hext htemp

/-- An event that does not open an edge leaves a constant that is added to its source a pointer. -/
theorem keepsAddend_of_writes (hp : p.state.Valid) (ha : a.Enabled g p)
    (hT : (act g skip p a).state.types.Extends T) {w t : Nat} {cause : Cause}
    (hwrites : Writes g p (act g skip p a) a w t cause)
    (hevent : ¬Reopens g T r (.changed w (p.state.temporary w) t cause)) (type : Nat) :
    Transfer.KeepsAddend g p.state (act g skip p a).state (edgeOf g r v dest type) := by
  intro hop hout k hk hconstant hptr
  have hext := (act_later skip hp ha).types.extends
  obtain ⟨s₁, hs₁, hstate⟩ := hwrites.state
  have htemp : (act g skip p a).state.temporary k =
      if k = w ∧ w < s₁.values.size then t else p.state.temporary k := by
    rw [hstate, temporary_setTemporary, hs₁.temporary]
  rw [htemp]
  split
  · rename_i hw
    obtain ⟨rfl, -⟩ := hw
    by_contra hnot
    apply hevent
    refine .addend hop hout hk hconstant ?_ ?_
    · rw [(hext.trans hT).metatype (hp.temporary k)]
      exact hptr
    · rw [hT.metatype hwrites.has]
      exact hnot
  · rw [hext.metatype (hp.temporary k)]
    exact hptr

/-- A closed edge stays closed when an action is performed whose event does not open it. -/
theorem Closed.step (h : Closed g skip p.state r) (hp : p.state.Valid) (ha : a.Enabled g p)
    (hin : (g.op r.op).at? r.inSlot = some v) (hT : (act g skip p a).state.types.Extends T)
    (hevent : ∀ e, (act g skip p a).events = p.events.push e → ¬Reopens g T r e) :
    Closed g skip (act g skip p a).state r := by
  rcases slots_cases g r with ⟨source, dest, hin', hout⟩ | hmissing
  · have hlater := act_later skip hp ha
    have hc := act_choice? skip hp hin (h.resolved hp hin hout) a
    have hfinish := h.sharpened hp hin hout hlater.types.extends
    rcases act_cases skip hp ha with hquiet | ⟨w, t, cause, hwrites⟩
    · have hsame := hquiet.learns.temporary
      exact hfinish (hsame v) hc (hlater.locked dest) (act_blocked skip hp ha dest)
        (.of_eq hp hlater.types.extends (hsame dest)) fun _ _ _ k _ _ hptr => by
          rw [hsame, hlater.types.extends.metatype (hp.temporary k)]
          exact hptr
    · have hnot := hevent _ hwrites.events
      obtain ⟨s₁, hs₁, hstate⟩ := hwrites.state
      have hv : v ≠ w := by
        rintro rfl
        exact hnot (.source hin)
      have hkept : (act g skip p a).state.temporary v = p.state.temporary v := by
        rw [hstate, temporary_setTemporary_ne hv, hs₁.temporary]
      exact hfinish hkept hc (hlater.locked dest) (act_blocked skip hp ha dest)
        (h.sharpened_of_writes hp ha hout hT hwrites hnot)
        (keepsAddend_of_writes hp ha hT hwrites hnot)
  · rw [Closed, judge_of_missing hmissing]

/-- A closed edge stays closed during a run whose events do not open it. -/
theorem Run.closed (h : Run g skip p as q) (hp : p.state.Valid) (hclosed : Closed g skip p.state r)
    (hin : (g.op r.op).at? r.inSlot = some v) (hT : q.state.types.Extends T) {news : List Event}
    (hnews : q.events.toList = p.events.toList ++ news)
    (hevents : ∀ e ∈ news, ¬Reopens g T r e) : Closed g skip q.state r := by
  induction h generalizing news with
  | nil => exact hclosed
  | @cons p q a rest ha hrest ih =>
    have hnext := act_valid skip hp ha
    obtain ⟨later, hlater⟩ := hrest.events_append hnext
    obtain ⟨first, hfirst⟩ := (Run.cons ha .nil : Run g skip p [a] _).events_append hp
    have hsplit : news = first ++ later := by
      rw [hlater, hfirst, List.append_assoc] at hnews
      exact (List.append_cancel_left hnews).symm
    have hstep : Closed g skip (act g skip p a).state r := by
      refine hclosed.step hp ha hin ((hrest.later hnext).types.extends.trans hT) fun e he => ?_
      apply hevents
      rw [he, Array.toList_push] at hfirst
      rw [hsplit, ← List.append_cancel_left hfirst]
      exact List.mem_append_left later (List.mem_singleton_self e)
    exact ih hnext hstep hT hlater fun e he =>
      hevents e (hsplit ▸ List.mem_append_right first he)

/-- An entry of a value is noted by an action that enters the value. -/
theorem eq_entered_of_event (hp : p.state.Valid) (ha : a.Enabled g p) {root : Nat}
    (h : (act g skip p a).events = p.events.push (.entered root v)) : a = .entered root v := by
  rcases act_cases skip hp ha with hquiet | ⟨w, t, cause, hwrites⟩
  · have hevents := hquiet.events
    rw [h] at hevents
    cases a with
    | entered root' w => cases Array.push_inj_right.mp hevents; rfl
    | offered r => exact absurd (congrArg Array.size hevents) (by simp)
    | unified w u => exact absurd (congrArg Array.size hevents) (by simp)
    | aliased w u => exact absurd (congrArg Array.size hevents) (by simp)
  · have hevents := hwrites.events
    rw [h] at hevents
    cases Array.push_inj_right.mp hevents

/-- Every entry of a run is noted. -/
theorem Run.mem_events_of_entered (h : Run g skip p as q) (hp : p.state.Valid) {root : Nat}
    (hmem : .entered root v ∈ as) : .entered root v ∈ q.events.toList := by
  obtain ⟨before, after, rfl⟩ := List.append_of_mem hmem
  obtain ⟨m, hm, ha, hrest⟩ := h.split_cons
  obtain ⟨news, hnews⟩ := hrest.events_append (act_valid skip (hm.valid hp) ha)
  rw [hnews, act, Pass.enter, Array.toList_push]
  simp

/-- An edge of a value is closed at the end of a run in which entered values offer their edges, if
no event after some entry of the value opens it. -/
theorem Run.closed_of_entered (h : Run g skip p as q) (hp : p.state.Valid) (hg : g.WellFormed)
    (hcomplete : Complete g as) (hsize : p.state.values.size = g.varnodes.size)
    (hT : q.state.types.Extends T) {before after : List Event} {root : Nat}
    (hentered : q.events.toList = before ++ .entered root v :: after)
    (hnot : .entered root v ∉ p.events.toList) (hr : r ∈ edges g v)
    (hnone : ∀ e ∈ after, ¬Reopens g T r e) : Closed g skip q.state r := by
  obtain ⟨b, a, b', m, rfl, hm, ha, hrest, hevents, hpush⟩ :=
    h.event_split hp hentered (h.size_le_of_not_mem hp hentered hnot)
  have hmvalid := hm.valid hp
  obtain rfl := eq_entered_of_event hmvalid ha hpush
  have hin := at?_of_mem_edges hg hr
  have hnext := act_valid skip hmvalid ha
  obtain ⟨c, c', rfl⟩ := List.append_of_mem (hcomplete.offered_after r hr)
  obtain ⟨n, hn, hoffered, hafter⟩ := hrest.split_cons
  have hnvalid := hn.valid hnext
  have hn'valid := act_valid skip hnvalid hoffered
  -- the events after the entry: before the offer, of the offer, and after it
  obtain ⟨mid, hmid⟩ := hn.events_append hnext
  obtain ⟨first, hfirst⟩ :=
    (Run.cons hoffered .nil : Run g skip n [.offered r] _).events_append hnvalid
  obtain ⟨news, hnews⟩ := hafter.events_append hn'valid
  have hsplit : after = mid ++ (first ++ news) := by
    rw [hnews, hfirst, hmid, hpush, Array.toList_push, hevents] at hentered
    simp only [List.append_assoc, List.append_cancel_left_eq] at hentered
    exact ((List.cons.inj hentered).2).symm
  have hsizes (w : Nat) (hw : (g.op r.op).Touches w) : w < n.state.values.size := by
    rw [(hn.later hnext).size, (act_later skip hmvalid ha).size, (hm.later hp).size, hsize]
    rcases hw with hinput | houtput
    · exact hg.lt_of_mem_inputs hinput
    · exact hg.lt_of_output houtput
  have hv : (act g skip n (.offered r)).state.temporary v = n.state.temporary v := by
    rcases act_cases skip hnvalid hoffered with hquiet | ⟨w, t, cause, hwrites⟩
    · exact hquiet.learns.temporary v
    · obtain ⟨s₁, hs₁, hstate⟩ := hwrites.state
      have hmem : .changed w (n.state.temporary w) t cause ∈ after := by
        rw [hwrites.events, Array.toList_push] at hfirst
        rw [hsplit, ← List.append_cancel_left hfirst]
        simp
      have hw : v ≠ w := by
        rintro rfl
        exact hnone _ hmem (.source hin)
      rw [hstate, temporary_setTemporary_ne hw, hs₁.temporary]
  apply hafter.closed hn'valid (closed_of_offered hnvalid hin hsizes hv) hin hT hnews
  intro e he
  exact hnone e (by rw [hsplit]; simp [he])

end Recovery

end TypeRecovery
