import TypeRecovery.Proofs.Checked.Mask
import TypeRecovery.Proofs.Checked.Report
import TypeRecovery.Proofs.Recovery.Counters

/-!
# Described functions run without faults

In the function that an accepted description describes, everything that is referred to by position
exists, and the layouts of types are within bounds. Calls for rounds keep it that way, in any number
and order. So the checked runs of the calls, of the verification and of the reports that may follow
them end with results: no position without an entry is read, no number leaves its word, and nothing
is divided by zero.

Positions and counters are natural numbers here. What positions refer to has to be in memory, and
the counters of a round are bounded by the size of the graph.
-/

namespace TypeRecovery

/-- Everything that a function refers to by position exists, and the layouts of its types are within
bounds. -/
structure Routine.Intact (r : Routine) : Prop where
  /-- Something is known of each value. -/
  typings : r.state.values.size = r.graph.varnodes.size
  /-- The types of values exist. -/
  valueTypes : ∀ v < r.graph.varnodes.size,
    r.state.types.Has (r.state.committed v) ∧ r.state.types.Has (r.state.temporary v)
  /-- The types of symbols, recommendations and the prototype exist. -/
  mentionedTypes : r.graph.TypesIn r.state.types
  /-- The components of types exist. -/
  components : ∀ id, r.state.types.Has id →
    ∀ c ∈ (r.state.types.shape id).components, r.state.types.Has c
  /-- The elements of arrays have a size. -/
  elements : ∀ id element count, r.state.types.Has id →
    r.state.types.shape id = .array element count → r.state.types.size element ≠ 0
  /-- The ends of fields fit 32 bits. -/
  fields : ∀ id fields, r.state.types.Has id →
    r.state.types.shape id = .struct fields ∨ r.state.types.shape id = .union fields →
      ∀ field ∈ fields, field.offset + r.state.types.size field.type < UInt32.size
  /-- The spaces whose contents have a type exist. -/
  frames : ∀ id space, r.state.types.Has id → r.state.types.shape id = .spacebase space →
    space < r.graph.spaces.size
  /-- The operands and results of ops exist. -/
  operands : ∀ op ∈ r.graph.ops, ∀ v ∈ op.inputs ++ op.output.toList, v < r.graph.varnodes.size
  /-- The ops that read and write values exist. -/
  users : ∀ v < r.graph.varnodes.size,
    ∀ o ∈ (r.graph.varnode v).readers ++ (r.graph.varnode v).definition.toList,
      o < r.graph.ops.size
  /-- The values in location order exist. -/
  located : ∀ v ∈ r.graph.byLocation, v < r.graph.varnodes.size
  /-- The spaces, the storage, the symbols and the base register of the graph exist. -/
  graph : r.graph.Intact
  /-- The ops for which fields of unions were chosen exist. -/
  choices : ∀ x ∈ r.state.choices, x.1.1 < r.graph.ops.size

namespace Checked

variable {r : Routine}

/-- A function on which checked calls give results is intact. -/
theorem Sound.intact_routine (h : Sound r) : r.Intact where
  typings := h.wellFormed.sizes
  valueTypes v hv := ⟨(h.ready.valid_of hv).committed v, (h.ready.valid_of hv).temporary v⟩
  mentionedTypes := h.wellFormed.mentioned
  components id hid c hc := h.wellFormed.types.has_component hid hc
  elements id element count hid hs := Nat.ne_of_gt (h.laid.element_pos hid hs)
  fields id fields hid hs field hfield :=
    Nat.lt_of_le_of_lt ((h.laid.get hid).fields fields hs field hfield) (h.laid.size_lt id)
  frames id space hid hs := (h.laid.get hid).space space hs
  operands op hop v hv := by
    have hwired := h.wellFormed.graph.wired_of_mem hop
    rcases List.mem_append.mp hv with hin | hout
    · exact hwired.inputs v hin
    · exact hwired.output v (Option.mem_toList.mp hout)
  users v _ o ho := by
    rcases List.mem_append.mp ho with hread | hwrite
    · exact h.wellFormed.graph.lt_of_mem_readers hread
    · exact h.wellFormed.graph.lt_of_definition (Option.mem_toList.mp hwrite)
  located v hv := (h.wellFormed.graph.located v).mp hv
  graph := h.intact
  choices := h.choices

/-- The values whose types were fixed at some moment exist later, and so do these types. -/
theorem Sound.lockedTypes_exist (h : Sound r) (later : List Routine.Call) :
    ∀ x ∈ r.lockedTypes,
      x.1 < (r.calls later).graph.varnodes.size ∧ (r.calls later).state.types.Has x.2 := by
  intro x hx
  obtain ⟨v, hv, hsome⟩ := List.mem_filterMap.mp hx
  have hlt := List.mem_range.mp hv
  split at hsome
  · cases hsome
    have hkeeps := h.wellFormed.keeps_calls later
    refine ⟨?_, ?_⟩
    · rw [r.graph_calls]
      exact hlt
    · exact hkeeps.types.has ((h.ready.valid_of hlt).committed v)
  · cases hsome

end Checked

namespace Description

/-- The function that an accepted description describes has all that the checked runs of calls need,
its names are of values, and no round has run. -/
theorem sound_of_build {d : Description} {n : NamedRoutine} (h : d.build = .ok n) :
    Checked.Sound n.routine ∧ (∀ x ∈ n.names, x.2 < n.routine.graph.varnodes.size) ∧
      n.routine.progress = .start := by
  obtain ⟨names, hnamed⟩ := named_build h
  refine ⟨⟨hnamed.wellFormed, hnamed.intact, hnamed.laid, ?_⟩, hnamed.values, hnamed.unstarted⟩
  intro x hx
  rw [hnamed.unchosen] at hx
  cases hx

/-- The masks of the values of a description can be computed without faults if no piece is joined to
a low part of 2^29 bytes or more. -/
theorem masks_of_build {d : Description} {n : NamedRoutine} (h : d.build = .ok n)
    (hnarrow : n.routine.graph.NarrowPieces) :
    ∃ parts, d.unmasked = .ok parts ∧
      Checked.installMasks d parts.routine.graph = .ok n.routine.graph := by
  obtain ⟨parts, hparts, rfl⟩ := build_eq_ok h
  obtain ⟨names, hnamed, hcount⟩ := named_unmasked hparts
  have hlinks := d.relabels_installMasks parts.routine.graph
  refine ⟨parts, hparts, Checked.installMasks_eq hnamed.wellFormed.graph ?_ ?_⟩
  · -- The masks change neither the ops nor the sizes of values.
    intro op hop hpiece v hv
    have hsize := hnarrow op (hlinks.ops.symm ▸ hop) hpiece v hv
    exact hlinks.sizes v ▸ hsize
  · exact fun x hx => hcount.symm ▸ lt_of_mem_givenMasks hx

/-- The function `n` of the description `d` goes through a sequence of calls without faults, and so
does what may follow the calls. -/
structure Faultless (d : Description) (n : NamedRoutine) (sequence : List Routine.Call) : Prop where
  /-- The masks of the values were computed without faults. -/
  masks : ∃ parts, d.unmasked = .ok parts ∧
    Checked.installMasks d parts.routine.graph = .ok n.routine.graph
  /-- No call has a fault. -/
  calls : Checked.calls n.routine sequence = .ok (n.routine.calls sequence)
  /-- Everything that is referred to exists after the calls, and layouts are within bounds. -/
  intact : (n.routine.calls sequence).Intact
  /-- The named values exist. -/
  names : ∀ x ∈ n.names, x.2 < (n.routine.calls sequence).graph.varnodes.size
  /-- The counters are bounded by the size of the graph. -/
  counters : Recovery.Bounded n.routine.graph (n.routine.calls sequence).progress.stats
  /-- The verification has no faults, whenever the fixed types were noted. -/
  verification : ∀ earlier, earlier <+: sequence →
    Checked.verify (n.routine.calls sequence) (n.routine.calls earlier).lockedTypes =
      .ok ((n.routine.calls sequence).verify (n.routine.calls earlier).lockedTypes)
  /-- The data-flow graph is built without faults. -/
  flow : Checked.flowGraph (n.routine.calls sequence).graph =
    .ok (n.routine.calls sequence).graph.flowGraph
  /-- The data-flow graph has strongly connected components. -/
  connected : ∃ components, (n.routine.calls sequence).graph.flowGraph.Components components
  /-- The cycles are found without faults, however the components are computed. -/
  cycles : ∀ components, (n.routine.calls sequence).graph.flowGraph.Components components →
    Checked.feedbackCycles (n.routine.calls sequence).graph components =
      .ok (n.routine.calls sequence).graph.feedbackCycles
  /-- The report has no faults, however the components are computed. -/
  report : ∀ components, (n.routine.calls sequence).graph.flowGraph.Components components →
    ∀ outcome namedOnly,
      Checked.report { n with routine := n.routine.calls sequence } components outcome namedOnly =
        .ok (NamedRoutine.report { n with routine := n.routine.calls sequence } outcome namedOnly)

/-- If a description is accepted and joins no piece to a low part of 2^29 bytes or more, the
function that it describes goes through every sequence of calls without faults. -/
theorem faultless_of_build {d : Description} {n : NamedRoutine} (h : d.build = .ok n)
    (hnarrow : n.routine.graph.NarrowPieces) (sequence : List Routine.Call) :
    d.Faultless n sequence := by
  obtain ⟨hsound, hnames, hprogress⟩ := sound_of_build h
  obtain ⟨hcalls, hlater⟩ := hsound.calls sequence
  have hgraph := hlater.wellFormed.graph
  refine ⟨masks_of_build h hnarrow, hcalls, hlater.intact_routine, ?_, ?_, ?_,
    Checked.flowGraph_eq hgraph, Graph.FlowGraph.exists_components _, ?_, ?_⟩
  · rw [Routine.graph_calls]
    exact hnames
  · refine hsound.wellFormed.bounded_calls ?_ sequence
    rw [hprogress]
    exact ⟨Nat.zero_le _, Nat.le_refl 0, Nat.zero_le _⟩
  · rintro earlier ⟨later, rfl⟩
    refine Checked.verify_eq hlater.ready ?_
    rw [Routine.calls_append]
    exact (hsound.calls earlier).2.lockedTypes_exist later
  · exact fun components hc => Checked.feedbackCycles_eq hgraph hc
  · intro components hc outcome namedOnly
    exact Checked.report_eq (n := { n with routine := n.routine.calls sequence }) hlater hc outcome
      namedOnly

/-- Two inputs are joined, one of them a field of a symbol, and a pointer into the frame is
computed. -/
def concatenation : Description where
  name := "join"
  spaces := [⟨"ram", .processor, 8, 1, false⟩, ⟨"stack", .stack, 4, 1, false⟩]
  stackSpace := "stack"
  types :=
    [⟨.struct, "pair", 8, [⟨0, "low", "int4"⟩, ⟨4, "high", "uint2[2]"⟩]⟩,
      ⟨.union, "word", 4, [⟨0, "number", "int4"⟩, ⟨0, "half", "uint2"⟩]⟩]
  symbols := [⟨"saved", "pair", true⟩]
  varnodes :=
    [{ name := "base", space := "ram", offset := 0, size := 8, spaceBase := true,
        type := some "spacebase*", typeLock := true },
      { name := "step", space := "const", offset := 16, size := 8 },
      { name := "at", space := "ram", offset := 8, size := 8, type := some "pair*",
        typeLock := true },
      { name := "local", space := "stack", offset := 16, size := 4 },
      { name := "high", space := "ram", offset := 32, size := 4, input := true },
      { name := "low", space := "ram", offset := 40, size := 4, input := true,
        symbol := some ⟨"saved", 0⟩ },
      { name := "whole", space := "ram", offset := 48, size := 8 },
      { name := "sum", space := "ram", offset := 56, size := 4 }]
  ops :=
    [{ opcode := .intAdd, address := 256, inputs := ["base", "step"], output := some "at" },
      { opcode := .copy, address := 260, inputs := ["low"], output := some "local" },
      { opcode := .piece, address := 264, inputs := ["high", "low"], output := some "whole" },
      { opcode := .intAdd, address := 268, inputs := ["high", "local"], output := some "sum" },
      { opcode := .ret, address := 272, inputs := ["step", "whole"] }]
  recommendations := [⟨"ram", 32, "word"⟩]
  heritage := [("stack", 1)]
  prototype := ⟨false, some "int8"⟩

/-- The first call gives values new types, and neither it nor those that follow have faults. -/
theorem concatenation_faultless : ∃ n, concatenation.build = .ok n ∧
    n.routine.graph.NarrowPieces ∧ (n.routine.apply {}).outcome = .changed 1 ∧
      concatenation.Faultless n [.apply {}, .reset, .apply { maxRounds := 1 }, .apply {}] := by
  have hany : (concatenation.build.toOption.any fun n =>
      n.routine.graph.NarrowPieces ∧ (n.routine.apply {}).outcome = .changed 1) = true := by
    decide +kernel
  cases hbuild : concatenation.build with
  | error e =>
    rw [hbuild] at hany
    cases hany
  | ok n =>
    rw [hbuild] at hany
    obtain ⟨hnarrow, hchanged⟩ := of_decide_eq_true hany
    exact ⟨n, rfl, hnarrow, hchanged, faultless_of_build hbuild hnarrow _⟩

end Description

end TypeRecovery
