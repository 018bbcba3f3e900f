import TypeRecovery.Recovery.Config
import TypeRecovery.Recovery.Flow

/-!
# Rounds of type recovery

A round installs recommended types, guesses a type for each observable value, pushes the types
through the graph, gives all returned values one type, copies the types of pointers into the frame
onto the frame, and commits what came out. Rounds are repeated until nothing changes or their
number reaches its limit.
-/

namespace TypeRecovery

namespace Recovery

/-- Fix the types of unlocked inputs for which a type was recommended. The second component counts
the values that were locked. -/
def applyRecommendation (g : Graph) (s : TypeState × Nat) (r : Recommendation) : TypeState × Nat :=
  match g.findInput? (s.1.types.size r.type) r.address with
  | none => s
  | some v => if s.1.locked v then s else (s.1.lock v r.type, s.2 + 1)

/-- Apply all recommendations in order. -/
def applyRecommendations (g : Graph) (s : TypeState) : TypeState × Nat :=
  g.recommendations.foldl (applyRecommendation g) (s, 0)

/-- The piece of a symbol of fixed type that an unlocked value stores, unless nothing is known of
its bytes. -/
def symbolPiece? (g : Graph) (s : TypeState) (v : VarnodeId) : Option TypeId :=
  let node := g.varnode v
  match node.entry.bind (g.entries[·]?) with
  | none => none
  | some entry =>
    match g.symbols[entry.symbol]? with
    | none => none
    | some symbol =>
      let offset := (node.address.offset - entry.address.offset + UInt64.ofNat entry.offset).toNat
      if symbol.typeLocked ∧ ¬s.locked v ∧ offset < UInt32.size then
        (s.types.exactPiece symbol.type offset node.size).filter fun t =>
          s.types.metatype t ≠ .unknown
      else none

/-- The first guess of a round at the type of a value. -/
def seedType (g : Graph) (s : TypeState) (v : VarnodeId) : Transfer.Guess :=
  match symbolPiece? g s v with
  | some t => ⟨t, false, s.types⟩
  | none => Transfer.localType g s v

/-- Replace the temporary type of a value by the first guess. -/
def seedValue (g : Graph) (p : Pass) (v : VarnodeId) : Pass :=
  let guess := seedType g p.state v
  let s := p.state.withTypes guess.table
  let s := if guess.blocks then s.block v else s
  { p with state := s }.setTemporary v guess.id .seed

/-- Guess the types of all observable values. -/
def seedAll (g : Graph) (p : Pass) : Pass := g.observables.foldl (seedValue g) p

/-- Push the types of all observable values. -/
def propagateAll (g : Graph) (skipMerges : Bool) (p : Pass) : Pass :=
  g.observables.foldl (propagate g skipMerges) p

/-- The values returned by live, ordinary returns, in order. -/
def returnedValues (g : Graph) : List VarnodeId :=
  g.returnOps.filterMap fun o =>
    let op := g.op o
    if op.dead || op.halt ≠ .normal then none else op.input? 1

/-- The position of the value with the most specific temporary type, the first one on ties. The
list starts at position `index`, and `best` is the choice among the positions before it. -/
def mostSpecificFrom (s : TypeState) :
    Nat → Option (Nat × VarnodeId) → List VarnodeId → Option (Nat × VarnodeId)
  | _, best, [] => best
  | index, none, v :: rest => mostSpecificFrom s (index + 1) (some (index, v)) rest
  | index, some (i, b), v :: rest =>
    mostSpecificFrom s (index + 1)
      (if s.types.moreSpecific (s.temporary v) (s.temporary b) then some (index, v)
        else some (i, b)) rest

/-- Give one returned value the type of the canonical one and push it on, if the value is free to
take it. -/
def unifyReturn (g : Graph) (skipMerges : Bool) (type : TypeId) (size : Nat) (p : Pass)
    (v : VarnodeId) : Pass :=
  let node := g.varnode v
  if node.size ≠ size ∨ p.state.locked v then p
  else if p.state.types.metatype type = .bool ∧ 1 < node.mask then p
  else if p.state.temporary v = type then p
  else propagate g skipMerges (p.setTemporary v type .unifiedReturn) v

/-- Give all returned values of one size the most specific type among them. -/
def unifyReturns (g : Graph) (skipMerges : Bool) (p : Pass) : Pass :=
  if g.prototype.outputLocked then p
  else
    match mostSpecificFrom p.state 0 none (returnedValues g) with
    | none => p
    | some (canonical, v) =>
      ((returnedValues g).eraseIdx canonical).foldl
        (unifyReturn g skipMerges (p.state.temporary v) (g.varnode v).size) p

/-- The signed byte offset that a reader of the base register adds to it. -/
def frameOffset? (g : Graph) (op : Op) : Option Int :=
  match op.opcode with
  | .copy => some 0
  | .intAdd | .ptrSub =>
    (g.constant? op 1).map fun c => signExtend c.address.offset.toNat c.size
  | .ptrAdd =>
    match g.constant? op 1, g.constant? op 2 with
    | some count, some scale =>
      some (signExtend (count.address.offset * scale.address.offset).toNat count.size)
    | _, _ => none
  | _ => none

/-- The pointer into the frame that a reader of the base register computes, and the place it
points to. -/
def frameReference? (g : Graph) (o : OpId) : Option (VarnodeId × UInt64) :=
  let op := g.op o
  match op.output, frameOffset? g op with
  | some out, some offset =>
    some (out, g.stackSpace.wrap (g.stackSpace.unitOfByte (wordOfInt offset)))
  | _, _ => none

/-- The pointers into the frame that readers of the base register compute. -/
def frameReferences (g : Graph) (base : VarnodeId) : List (VarnodeId × UInt64) :=
  (g.varnode base).readers.filterMap (frameReference? g)

/-- The piece of a type that was looked up last. -/
structure Lookup where
  /-- The first of its bytes. -/
  offset : Nat
  /-- Their number. -/
  size : Nat
  /-- The piece, if the bytes form one. -/
  piece : Option TypeId
  deriving DecidableEq, Repr

/-- Look up a piece of `pointee`, unless it is the one that was looked up last. -/
def Lookup.recall (last : Lookup) (t : TypeTable) (pointee : TypeId) (offset size : Nat) : Lookup :=
  if last.offset = offset ∧ last.size = size then last
  else ⟨offset, size, t.exactPiece pointee offset size⟩

/-- A pass that copies one type onto the frame. -/
structure Aliasing where
  /-- The pass. -/
  pass : Pass
  /-- The piece of the type that was looked up last. -/
  last : Lookup
  deriving DecidableEq, Repr

/-- Give a value of the frame the type of the piece of `pointee` that it stores, when `pointee` is
the type of the frame from `start` on. Values that follow one another often store the same piece,
which is then looked up once. -/
def aliasNext (g : Graph) (skipMerges : Bool) (start : UInt64) (pointee : TypeId) (a : Aliasing)
    (v : VarnodeId) : Aliasing :=
  let node := g.varnode v
  let p := a.pass
  if !node.isObservable || p.state.locked v || node.entry.isSome then a
  else
    let offset := (g.stackSpace.wrap (node.address.offset - start)).toNat
    if p.state.types.size pointee < offset + node.size then a
    else
      let last := a.last.recall p.state.types pointee offset node.size
      match last.piece with
      | none => ⟨p, last⟩
      | some piece =>
        if p.state.types.moreSpecific piece (p.state.temporary v) then
          ⟨propagate g skipMerges (p.setTemporary v piece .stackAlias) v, last⟩
        else ⟨p, last⟩

/-- The values of the frame that start within the `size` bytes from `start` on. A range that runs
over the end of the space has no upper end. -/
def coveredValues (g : Graph) (start : UInt64) (size : Nat) : List VarnodeId :=
  let stop := g.stackSpace.wrap (start + UInt64.ofNat size)
  g.valuesInRange g.stack start (if stop < start then none else some stop)

/-- Copy the type behind a pointer to the place `start` of the frame onto the values there. -/
def aliasReference (g : Graph) (skipMerges : Bool) (p : Pass) (reference : VarnodeId × UInt64) :
    Pass :=
  match p.state.types.pointee? (p.state.temporary reference.1) with
  | none => p
  | some pointee =>
    let metatype := p.state.types.metatype pointee
    if metatype = .spacebase ∨ metatype = .unknown then p
    else
      let size := p.state.types.size pointee
      ((coveredValues g reference.2 size).foldl (aliasNext g skipMerges reference.2 pointee)
        ⟨p, ⟨0, size, some pointee⟩⟩).pass

/-- Copy the types behind pointers into the frame onto the frame. -/
def aliasFrame (g : Graph) (skipMerges : Bool) (p : Pass) : Pass :=
  match g.spaceBase with
  | none => p
  | some base =>
    if p.state.types.isSpacebasePointer (p.state.committed base) then
      (frameReferences g base).foldl (aliasReference g skipMerges) p
    else p

/-- Commit the temporary type of a value. The second component tells whether anything changed. -/
def commitValue (s : TypeState × Bool) (v : VarnodeId) : TypeState × Bool :=
  let t := s.1.temporary v
  (s.1.commit v t, s.2 || s.1.canCommit v t)

/-- Commit the temporary types of all observable values. -/
def commitAll (g : Graph) (s : TypeState) : TypeState × Bool :=
  g.observables.foldl commitValue (s, false)

/-- Whether merge points are left out of a round. -/
def skipsMerges (c : Config) (g : Graph) : Bool :=
  c.requireHeritageForMerges && g.heritagePasses g.stack = 0

/-- The phases of a round between the recommendations and the commit. -/
def recover (c : Config) (g : Graph) (s : TypeState) : Pass :=
  let skip := skipsMerges c g
  let p := propagateAll g skip (seedAll g { state := s })
  let p := if c.propagateAcrossReturns then unifyReturns g skip p else p
  if c.propagateSpacebase then aliasFrame g skip p else p

end Recovery

/-- The result of one call for a round. -/
inductive Outcome where
  /-- Type recovery has not started for the function. -/
  | notStarted
  /-- Some committed type changed in the round with this number. -/
  | changed (round : Nat)
  /-- Nothing changed, and no further call does anything. -/
  | converged
  /-- The number of rounds reached its limit, and a warning was given. -/
  | capped
  /-- Recovery had ended before the call. -/
  | noOp
  deriving DecidableEq, Repr

/-- The word for an outcome. -/
def Outcome.name : Outcome → String
  | notStarted => "not_started"
  | changed _ => "changed"
  | converged => "converged"
  | capped => "capped"
  | noOp => "no_op"

/-- Whether a further call may change something. -/
def Outcome.isChanged : Outcome → Bool
  | changed _ => true
  | _ => false

/-- The warning for a function whose types do not settle. -/
def notSettling : String := "Type propagation algorithm not settling"

/-- What one call for a round leaves behind. -/
structure RoundResult where
  /-- The outcome. -/
  outcome : Outcome
  /-- The function after the call. -/
  routine : Routine
  /-- The events of the round. -/
  events : Array Event
  deriving DecidableEq, Repr

namespace Routine

/-- Run a round on a function for which another round is due. -/
def runRound (c : Config) (r : Routine) : RoundResult :=
  let recommended := (Recovery.applyRecommendations r.graph r.state).1
  let pass := Recovery.recover c r.graph recommended
  let committed := Recovery.commitAll r.graph pass.state
  if committed.2 then
    let round := r.progress.rounds + 1
    { outcome := .changed round
      routine := { r with
        state := committed.1
        progress := .running round pass.stats }
      events := pass.events }
  else
    { outcome := .converged
      routine := { r with
        state := committed.1
        progress := r.progress.converge pass.stats }
      events := pass.events }

/-- Give up on a function whose number of rounds reached its limit. -/
def cap (r : Routine) : Routine :=
  { r.warn notSettling with
    exceeded := true
    progress := r.progress.giveUp }

/-- Run one round of type recovery, if one is due. -/
def apply (c : Config) (r : Routine) : RoundResult :=
  if !r.started then ⟨.notStarted, r, #[]⟩
  else if r.progress.isFinished then ⟨.noOp, r, #[]⟩
  else if c.maxRounds.toNat ≤ r.progress.rounds then ⟨.capped, r.cap, #[]⟩
  else r.runRound c

/-- Forget the state of the rounds, so that recovery starts afresh. -/
def reset (r : Routine) : Routine := { r with progress := .start }

/-- The results of rounds until one changes nothing, at most `calls` of them. -/
def settleWithin (c : Config) : (calls : Nat) → Routine → List RoundResult
  | 0, _ => []
  | calls + 1, r =>
    let result := r.apply c
    if result.outcome.isChanged then result :: settleWithin c calls result.routine
    else [result]

/-- The results of rounds until one changes nothing. Each round that changes something counts
towards the limit, so one call more than the limit is enough. -/
def settle (c : Config) (r : Routine) : List RoundResult :=
  settleWithin c (c.maxRounds.toNat + 1) r

end Routine

end TypeRecovery
