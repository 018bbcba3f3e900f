import TypeRecovery.Assoc
import TypeRecovery.Description.Basic
import TypeRecovery.Json.Decode
import TypeRecovery.Json.Reader

/-!
# Descriptions as documents

Each part of a description is a record. Fields with a default may be left out when reading and are
all written when printing.
-/

namespace TypeRecovery

namespace SpaceDecl

/-- The fields of a declared space. -/
def fieldNames : List String := ["name", "kind", "addr_size", "word_size", "big_endian"]

/-- The space that a document declares. -/
def ofJson? (j : Json) : Option SpaceDecl := do
  let f ← j.fields? fieldNames
  let name ← f.required "name" Json.text?
  let kind ← f.required "kind" (Json.word? SpaceKind.ofName?)
  let addressSize ← f.orElse "addr_size" Json.uint32? 8
  let wordSize ← f.orElse "word_size" Json.uint32? 1
  let bigEndian ← f.orElse "big_endian" Json.bool? false
  return { name, kind, addressSize, wordSize, bigEndian }

/-- The document that declares a space. -/
def toJson (d : SpaceDecl) : Json :=
  .record
    [("name", .str d.name), ("kind", .str d.kind.name), ("addr_size", .nat d.addressSize.toNat),
      ("word_size", .nat d.wordSize.toNat), ("big_endian", .bool d.bigEndian)]

end SpaceDecl

namespace FieldDecl

/-- The fields of a declared field. -/
def fieldNames : List String := ["offset", "name", "type"]

/-- The field that a document declares. -/
def ofJson? (j : Json) : Option FieldDecl := do
  let f ← j.fields? fieldNames
  let offset ← f.orElse "offset" Json.uint32? 0
  let name ← f.required "name" Json.text?
  let type ← f.required "type" Json.text?
  return { offset, name, type }

/-- The document that declares a field. -/
def toJson (d : FieldDecl) : Json :=
  .record [("offset", .nat d.offset.toNat), ("name", .str d.name), ("type", .str d.type)]

end FieldDecl

namespace TypeDecl

/-- The levels of nesting that are left for the fields of a type declaration. A document has at
most 127 levels, of which the description, its list of types and the declaration take three. -/
def nestingLimit : Nat := 124

/-- The fields of a declared type besides its kind. -/
def fieldNames : List String := ["name", "size", "fields"]

/-- The items or members of a document are plain, known to the format or not. -/
def isPlainRecord : Json → Bool
  | .array items => Json.allPlain nestingLimit items
  | .object members => Json.allPlainMembers nestingLimit members
  | _ => false

/-- The type that a document declares. -/
def ofJson? (j : Json) : Option TypeDecl := do
  guard (isPlainRecord j)
  let (tag, content) ← j.tagged? "kind"
  let kind ← Aggregate.ofName? tag
  let f ← content.fields? fieldNames
  let name ← f.required "name" Json.text?
  let size ← f.required "size" Json.uint32?
  let fields ← f.required "fields" (Json.list? FieldDecl.ofJson?)
  return { kind, name, size, fields }

/-- The document that declares a type. -/
def toJson (d : TypeDecl) : Json :=
  .record
    [("kind", .str d.kind.name), ("name", .str d.name), ("size", .nat d.size.toNat),
      ("fields", .list FieldDecl.toJson d.fields)]

end TypeDecl

namespace SymbolDecl

/-- The fields of a declared symbol. -/
def fieldNames : List String := ["name", "type", "type_locked"]

/-- The symbol that a document declares. -/
def ofJson? (j : Json) : Option SymbolDecl := do
  let f ← j.fields? fieldNames
  let name ← f.required "name" Json.text?
  let type ← f.required "type" Json.text?
  let typeLocked ← f.orElse "type_locked" Json.bool? false
  return { name, type, typeLocked }

/-- The document that declares a symbol. -/
def toJson (d : SymbolDecl) : Json :=
  .record [("name", .str d.name), ("type", .str d.type), ("type_locked", .bool d.typeLocked)]

end SymbolDecl

namespace SymbolPart

/-- The fields of a part of a symbol. -/
def fieldNames : List String := ["name", "offset"]

/-- The part of a symbol that a document names. -/
def ofJson? (j : Json) : Option SymbolPart := do
  let f ← j.fields? fieldNames
  let name ← f.required "name" Json.text?
  let offset ← f.orElse "offset" Json.uint32? 0
  return { name, offset }

/-- The document that names a part of a symbol. -/
def toJson (d : SymbolPart) : Json :=
  .record [("name", .str d.name), ("offset", .nat d.offset.toNat)]

end SymbolPart

namespace VarnodeDecl

/-- The fields of a declared value. -/
def fieldNames : List String :=
  ["name", "space", "offset", "size", "input", "spacebase", "type", "type_lock", "annotation",
    "addr_tied", "nz_mask", "symbol"]

/-- The value that a document declares. -/
def ofJson? (j : Json) : Option VarnodeDecl := do
  let f ← j.fields? fieldNames
  let name ← f.orElse "name" Json.text? ""
  let space ← f.orElse "space" Json.text? ""
  let offset ← f.orElse "offset" Json.uint64? 0
  let size ← f.orElse "size" Json.uint32? 0
  let input ← f.orElse "input" Json.bool? false
  let spaceBase ← f.orElse "spacebase" Json.bool? false
  let type ← f.orElse "type" (Json.nullable? Json.text?) none
  let typeLock ← f.orElse "type_lock" Json.bool? false
  let annotation ← f.orElse "annotation" Json.bool? false
  let addrTied ← f.orElse "addr_tied" Json.bool? false
  let mask ← f.orElse "nz_mask" (Json.nullable? Json.uint64?) none
  let symbol ← f.orElse "symbol" (Json.nullable? SymbolPart.ofJson?) none
  return {
    name, space, offset, size, input, spaceBase, type, typeLock, annotation, addrTied, mask,
    symbol }

/-- The document that declares a value. -/
def toJson (d : VarnodeDecl) : Json :=
  .record
    [("name", .str d.name), ("space", .str d.space), ("offset", .nat d.offset.toNat),
      ("size", .nat d.size.toNat), ("input", .bool d.input), ("spacebase", .bool d.spaceBase),
      ("type", .optional .str d.type), ("type_lock", .bool d.typeLock),
      ("annotation", .bool d.annotation), ("addr_tied", .bool d.addrTied),
      ("nz_mask", .optional (fun m => .nat m.toNat) d.mask),
      ("symbol", .optional SymbolPart.toJson d.symbol)]

end VarnodeDecl

namespace OpDecl

/-- The fields of a declared op. -/
def fieldNames : List String :=
  ["opcode", "addr", "inputs", "output", "dead", "halt", "stops_type_propagation",
    "indirect_creation"]

/-- The op that a document declares. -/
def ofJson? (j : Json) : Option OpDecl := do
  let f ← j.fields? fieldNames
  let opcode ← f.required "opcode" (Json.word? Opcode.ofName?)
  let address ← f.orElse "addr" Json.uint64? 0
  let inputs ← f.orElse "inputs" (Json.list? Json.text?) []
  let output ← f.orElse "output" (Json.nullable? Json.text?) none
  let dead ← f.orElse "dead" Json.bool? false
  let leaving ← f.orElse "halt" (Json.word? HaltKind.ofName?) .normal
  let stopsPropagation ← f.orElse "stops_type_propagation" Json.bool? false
  let creation ← f.orElse "indirect_creation" Json.bool? false
  return {
    opcode, address, inputs, output, dead, halt := leaving, stopsPropagation, creation }

/-- The document that declares an op. -/
def toJson (d : OpDecl) : Json :=
  .record
    [("opcode", .str d.opcode.name), ("addr", .nat d.address.toNat),
      ("inputs", .list .str d.inputs), ("output", .optional .str d.output),
      ("dead", .bool d.dead), ("halt", .str d.halt.name),
      ("stops_type_propagation", .bool d.stopsPropagation),
      ("indirect_creation", .bool d.creation)]

end OpDecl

namespace RecommendationDecl

/-- The fields of a suggested type. -/
def fieldNames : List String := ["space", "offset", "type"]

/-- The suggestion that a document makes. -/
def ofJson? (j : Json) : Option RecommendationDecl := do
  let f ← j.fields? fieldNames
  let space ← f.required "space" Json.text?
  let offset ← f.required "offset" Json.uint64?
  let type ← f.required "type" Json.text?
  return { space, offset, type }

/-- The document that makes a suggestion. -/
def toJson (d : RecommendationDecl) : Json :=
  .record [("space", .str d.space), ("offset", .nat d.offset.toNat), ("type", .str d.type)]

end RecommendationDecl

namespace PrototypeDecl

/-- The fields of a prototype. -/
def fieldNames : List String := ["output_locked", "output_type"]

/-- The prototype that a document declares. -/
def ofJson? (j : Json) : Option PrototypeDecl := do
  let f ← j.fields? fieldNames
  let outputLocked ← f.orElse "output_locked" Json.bool? false
  let outputType ← f.orElse "output_type" (Json.nullable? Json.text?) none
  return { outputLocked, outputType }

/-- The document that declares a prototype. -/
def toJson (d : PrototypeDecl) : Json :=
  .record
    [("output_locked", .bool d.outputLocked), ("output_type", .optional .str d.outputType)]

end PrototypeDecl

namespace Description

/-- One member of the heritage record. -/
def heritageMember? (member : Text × Json) : Option (String × UInt32) :=
  match member with
  | (some name, value) => value.uint32?.map fun passes => (name, passes)
  | (none, _) => none

/-- Heritage passes by the name of the space. The last of repeated members counts. -/
def heritageOfJson? : Json → Option (List (String × UInt32))
  | .object members =>
    (members.mapM heritageMember?).map fun pairs =>
      pairs.foldl (fun acc (name, passes) => Assoc.set name passes acc) []
  | _ => none

/-- The document that lists heritage passes. -/
def heritageToJson (heritage : List (String × UInt32)) : Json :=
  .record (heritage.map fun (name, passes) => (name, .nat passes.toNat))

/-- The fields of a description. -/
def fieldNames : List String :=
  ["name", "pointer_size", "spaces", "stack_space", "types", "symbols", "varnodes", "ops",
    "recommendations", "heritage", "prototype", "type_recovery_started"]

/-- The description that a document gives. -/
def ofJson? (j : Json) : Option Description := do
  let f ← j.fields? fieldNames
  let name ← f.required "name" Json.text?
  let pointerSize ← f.orElse "pointer_size" Json.uint32? 8
  let spaces ← f.required "spaces" (Json.list? SpaceDecl.ofJson?)
  let stackSpace ← f.required "stack_space" Json.text?
  let types ← f.orElse "types" (Json.list? TypeDecl.ofJson?) []
  let symbols ← f.orElse "symbols" (Json.list? SymbolDecl.ofJson?) []
  let varnodes ← f.required "varnodes" (Json.list? VarnodeDecl.ofJson?)
  let ops ← f.required "ops" (Json.list? OpDecl.ofJson?)
  let recommendations ← f.orElse "recommendations" (Json.list? RecommendationDecl.ofJson?) []
  let heritage ← f.orElse "heritage" heritageOfJson? []
  let prototype ← f.orElse "prototype" PrototypeDecl.ofJson? {}
  let typeRecoveryStarted ← f.orElse "type_recovery_started" Json.bool? true
  return {
    name, pointerSize, spaces, stackSpace, types, symbols, varnodes, ops, recommendations,
    heritage, prototype, typeRecoveryStarted }

/-- The document that gives a description. -/
def toJson (d : Description) : Json :=
  .record
    [("name", .str d.name), ("pointer_size", .nat d.pointerSize.toNat),
      ("spaces", .list SpaceDecl.toJson d.spaces), ("stack_space", .str d.stackSpace),
      ("types", .list TypeDecl.toJson d.types), ("symbols", .list SymbolDecl.toJson d.symbols),
      ("varnodes", .list VarnodeDecl.toJson d.varnodes), ("ops", .list OpDecl.toJson d.ops),
      ("recommendations", .list RecommendationDecl.toJson d.recommendations),
      ("heritage", heritageToJson d.heritage), ("prototype", d.prototype.toJson),
      ("type_recovery_started", .bool d.typeRecoveryStarted)]

/-- The description that a text gives. -/
def parse? (text : String) : Option Description := (Json.parse? text).bind ofJson?

end Description

end TypeRecovery
