import TypeRecovery.Assoc
import TypeRecovery.Description.Basic
import TypeRecovery.Description.TypeExpr
import TypeRecovery.Routine

/-!
# Building functions from descriptions

The parts of a description are added one after the other, in a fixed order, to a function that
starts empty. The first part that does not fit ends the construction with an error.
-/

namespace TypeRecovery

/-- A function whose values have names. -/
structure NamedRoutine where
  /-- The function. -/
  routine : Routine
  /-- The names of its values, in the order in which they were first used. -/
  names : List (String × VarnodeId) := []
  deriving DecidableEq, Repr, Inhabited

namespace NamedRoutine

/-- The value with a name. -/
def value? (n : NamedRoutine) (name : String) : Option VarnodeId := n.names.lookup name

/-- The name of a value. -/
def nameOf? (n : NamedRoutine) (v : VarnodeId) : Option String :=
  (n.names.find? fun entry => entry.2 = v).map (·.1)

/-- The name of a value, or a label made from its position. -/
def label (n : NamedRoutine) (v : VarnodeId) : String :=
  (n.nameOf? v).getD (Graph.anonymousLabel v)

/-- Change the function. -/
def modify (n : NamedRoutine) (f : Routine → Routine) : NamedRoutine :=
  { n with routine := f n.routine }

/-- Name a value. A name that is in use keeps its place and changes its meaning. -/
def setName (n : NamedRoutine) (name : String) (v : VarnodeId) : NamedRoutine :=
  { n with names := Assoc.set name v n.names }

end NamedRoutine

namespace Description

/-- The space with a name. -/
def findSpace (spaces : SpaceTable) (name : String) : Except GraphError SpaceId :=
  match spaces.find? name with
  | some id => .ok id
  | none => .error (.unknownSpace name)

/-- Add a declared space. -/
def addSpace (t : SpaceTable) (d : SpaceDecl) : Except GraphError SpaceTable := do
  let added ← t.add d.name d.kind d.addressSize.toNat d.wordSize.toNat
  return added.setBigEndian t.spaces.size d.bigEndian

/-- The address spaces of a description. -/
def buildSpaces (d : Description) : Except GraphError SpaceTable :=
  d.spaces.foldlM addSpace SpaceTable.initial

/-- The declared types so far. -/
structure Types where
  /-- What names mean. -/
  names : TypeExpr.Names
  /-- The table of types. -/
  table : TypeTable
  deriving DecidableEq, Repr

/-- Resolve the type of a declared field and append it to the fields before. -/
def addField (names : TypeExpr.Names) (acc : List Field × TypeTable) (d : FieldDecl) :
    Except GraphError (List Field × TypeTable) := do
  let t ← TypeExpr.denote names acc.2 d.type
  return (acc.1 ++ [⟨d.offset.toNat, d.name, t.id⟩], t.table)

/-- Declare a type. The types of its fields are resolved first. -/
def addType (acc : Types) (d : TypeDecl) : Except GraphError Types := do
  let (fields, table) ← d.fields.foldlM (addField acc.names) ([], acc.table)
  let t ← match d.kind with
    | .struct => table.struct d.name d.size.toNat fields
    | .union => table.union d.name d.size.toNat fields
  return ⟨{ acc.names with declared := (d.name, t.id) :: acc.names.declared }, t.table⟩

/-- Resolve a type expression in the function's own table. -/
def denoteIn (names : TypeExpr.Names) (r : Routine) (text : String) :
    Except GraphError (TypeId × Routine) := do
  let t ← TypeExpr.denote names r.state.types text
  return (t.id, r.withTypes t.table)

/-- Add a symbol. -/
def addSymbol (names : TypeExpr.Names) (r : Routine) (d : SymbolDecl) :
    Except GraphError Routine := do
  let (type, r) ← denoteIn names r d.type
  return r.modifyGraph (·.addSymbol ⟨d.name, type, d.typeLocked⟩)

/-- Add the value of a declaration without its type and symbol. -/
def placeVarnode (r : Routine) (d : VarnodeDecl) (space : SpaceId) : Routine :=
  let address : Address := ⟨space, d.offset⟩
  if space = SpaceTable.constantSpace then r.newConstant d.size.toNat d.offset
  else if d.input || d.spaceBase then r.newInput d.size.toNat address
  else r.newVarnode d.size.toNat address

/-- Set the flags of a declared value. -/
def flagVarnode (g : Graph) (v : VarnodeId) (d : VarnodeDecl) : Graph :=
  let g := if d.spaceBase then g.setSpaceBase v else g
  g.modifyVarnode v fun node =>
    { node with
      annotation := node.annotation || d.annotation
      addrTied := node.addrTied || d.addrTied }

/-- Install the declared type of a value. A lock without a type locks the unknown type. -/
def typeVarnode (names : TypeExpr.Names) (r : Routine) (v : VarnodeId) (d : VarnodeDecl) :
    Except GraphError Routine :=
  match d.type with
  | some text => do
    let (type, r) ← denoteIn names r text
    if d.typeLock then return r.modifyState (·.lock v type)
    else return r.modifyState fun s => (s.commit v type).setTemporary v type
  | none =>
    if d.typeLock then .ok (r.modifyState fun s => s.lock v (s.committed v)) else .ok r

/-- Bind a value to the declared part of a symbol. -/
def bindVarnode (r : Routine) (v : VarnodeId) (d : VarnodeDecl) (space : SpaceId) :
    Except GraphError Routine :=
  match d.symbol with
  | none => .ok r
  | some part =>
    match r.graph.findSymbol? part.name with
    | none => .error (.invalidGraph (.unknownSymbol part.name))
    | some symbol =>
      .ok (r.modifyGraph (·.bindSymbol v
        ⟨symbol, ⟨space, d.offset⟩, d.size.toNat, part.offset.toNat⟩))

/-- Add a declared value. -/
def addVarnode (names : TypeExpr.Names) (n : NamedRoutine) (d : VarnodeDecl) :
    Except GraphError NamedRoutine := do
  if (n.value? d.name).isSome then throw (.invalidGraph (.duplicateVarnode d.name))
  if d.size = 0 then throw (.invalidGraph (.emptyVarnode d.name))
  let space ← findSpace n.routine.graph.spaces d.space
  let v := n.routine.graph.varnodes.size
  let placed := (placeVarnode n.routine d space).modifyGraph fun g => flagVarnode g v d
  let typed ← typeVarnode names placed v d
  let bound ← bindVarnode typed v d space
  return { routine := bound, names := n.names ++ [(d.name, v)] }

/-- The value with a name. -/
def findVarnode (n : NamedRoutine) (name : String) : Except GraphError VarnodeId :=
  match n.value? name with
  | some v => .ok v
  | none => .error (.unknownVarnode name)

/-- Add a declared op, whose instruction is in the space `code`. -/
def addOp (code : SpaceId) (n : NamedRoutine) (d : OpDecl) : Except GraphError NamedRoutine := do
  let inputs ← d.inputs.mapM (findVarnode n)
  let output ← d.output.mapM (findVarnode n)
  if inputs.length < d.opcode.minInputs then
    throw (.slotOutOfRange (d.opcode.minInputs - 1) d.address.toNat inputs.length)
  let routine ← n.routine.newOp
    { opcode := d.opcode, address := ⟨code, d.address⟩, inputs, output, dead := d.dead,
      halt := d.halt, stopsPropagation := d.stopsPropagation, creation := d.creation }
  return { n with routine }

/-- Add a suggested type. -/
def addRecommendation (names : TypeExpr.Names) (r : Routine) (d : RecommendationDecl) :
    Except GraphError Routine := do
  let space ← findSpace r.graph.spaces d.space
  let (type, r) ← denoteIn names r d.type
  return r.modifyGraph (·.addRecommendation ⟨⟨space, d.offset⟩, type⟩)

/-- Record the heritage passes of a space. -/
def addHeritage (r : Routine) (entry : String × UInt32) : Except GraphError Routine := do
  let space ← findSpace r.graph.spaces entry.1
  return r.modifyGraph (·.setHeritage space entry.2.toNat)

/-- Install the prototype. -/
def setPrototype (names : TypeExpr.Names) (r : Routine) (d : PrototypeDecl) :
    Except GraphError Routine :=
  match d.outputType with
  | none => .ok (r.modifyGraph fun g => { g with prototype := ⟨d.outputLocked, none⟩ })
  | some text => do
    let (type, r) ← denoteIn names r text
    return r.modifyGraph fun g => { g with prototype := ⟨d.outputLocked, some type⟩ }

/-- The masks given for values. -/
def givenMasks (d : Description) : List (VarnodeId × UInt64) :=
  d.varnodes.zipIdx.filterMap fun (v, i) => v.mask.map fun mask => (i, mask)

/-- Install the given masks of the values that are written, or of those that are not. -/
def setMasks (written : Bool) (g : Graph) (given : List (VarnodeId × UInt64)) : Graph :=
  given.foldl (fun g (v, mask) =>
    if (g.varnode v).isWritten = written then g.setMask v mask else g) g

/-- Compute the masks of written values from those given for the others; what is given for a
written value replaces the computed mask. -/
def installMasks (d : Description) (g : Graph) : Graph :=
  setMasks true (setMasks false g d.givenMasks).computeMasks d.givenMasks

/-- The function that a description describes. -/
def build (d : Description) : Except GraphError NamedRoutine := do
  let spaces ← d.buildSpaces
  let stack ← findSpace spaces d.stackSpace
  let code := spaces.dataSpace?.getD stack
  let types ← d.types.foldlM addType
    ⟨{ stack, stackName := d.stackSpace }, TypeTable.empty d.pointerSize.toNat⟩
  let names := types.names
  let start : Routine :=
    { Routine.empty d.name spaces stack types.table with started := d.typeRecoveryStarted }
  let r ← d.symbols.foldlM (addSymbol names) start
  let n ← d.varnodes.foldlM (addVarnode names) { routine := r }
  let n ← d.ops.foldlM (addOp code) n
  let r ← d.recommendations.foldlM (addRecommendation names) n.routine
  let r ← d.heritage.foldlM addHeritage r
  let r ← setPrototype names r d.prototype
  return { n with routine := r.modifyGraph d.installMasks }

end Description

end TypeRecovery
