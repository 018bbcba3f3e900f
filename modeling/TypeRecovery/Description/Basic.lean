import TypeRecovery.Graph.Basic

/-!
# Descriptions of functions

A description is what a document says about a function: address spaces, data types, symbols,
values and ops, all referred to by name. Nothing in it has been checked against anything else.
-/

namespace TypeRecovery

/-- A declared address space. -/
structure SpaceDecl where
  /-- Its name. -/
  name : String
  /-- Its kind of storage. -/
  kind : SpaceKind
  /-- Bytes of an address. -/
  addressSize : UInt32 := 8
  /-- Bytes of an addressable unit. -/
  wordSize : UInt32 := 1
  /-- Whether the most significant byte of a value comes first. -/
  bigEndian : Bool := false
  deriving DecidableEq, Repr, Inhabited

/-- A declared field of a structure or union. -/
structure FieldDecl where
  /-- Byte at which the field starts. -/
  offset : UInt32 := 0
  /-- Its name. -/
  name : String
  /-- Its type expression. -/
  type : String
  deriving DecidableEq, Repr, Inhabited

/-- How a declared type combines its fields. -/
inductive Aggregate where
  | struct
  | union
  deriving DecidableEq, Repr, Inhabited

/-- The word for a way to combine fields. -/
def Aggregate.name : Aggregate → String
  | struct => "struct"
  | union => "union"

/-- The way to combine fields that a word names. -/
def Aggregate.ofName? (name : String) : Option Aggregate :=
  [struct, union].find? (·.name = name)

/-- A declared data type. -/
structure TypeDecl where
  /-- How the fields are combined. -/
  kind : Aggregate
  /-- Its name. -/
  name : String
  /-- Its size in bytes. -/
  size : UInt32
  /-- Its fields in order. -/
  fields : List FieldDecl
  deriving DecidableEq, Repr, Inhabited

/-- A declared symbol. -/
structure SymbolDecl where
  /-- Its name. -/
  name : String
  /-- Its type expression. -/
  type : String
  /-- Whether the type is fixed. -/
  typeLocked : Bool := false
  deriving DecidableEq, Repr, Inhabited

/-- The part of a symbol that a value stores. -/
structure SymbolPart where
  /-- Name of the symbol. -/
  name : String
  /-- The byte of the symbol at which the value starts. -/
  offset : UInt32 := 0
  deriving DecidableEq, Repr, Inhabited

/-- A declared value. -/
structure VarnodeDecl where
  /-- Its name. -/
  name : String := ""
  /-- Name of its space. -/
  space : String := ""
  /-- Its offset in the space. -/
  offset : UInt64 := 0
  /-- Its size in bytes. -/
  size : UInt32 := 0
  /-- Whether it exists on entry to the function. -/
  input : Bool := false
  /-- Whether it is the base register of the frame. -/
  spaceBase : Bool := false
  /-- Its type expression. -/
  type : Option String := none
  /-- Whether its type is fixed. -/
  typeLock : Bool := false
  /-- Whether it only annotates an op. -/
  annotation : Bool := false
  /-- Whether it is tied to its address. -/
  addrTied : Bool := false
  /-- The bits that may be non-zero. -/
  mask : Option UInt64 := none
  /-- The part of a symbol that it stores. -/
  symbol : Option SymbolPart := none
  deriving DecidableEq, Repr, Inhabited

/-- A declared op. -/
structure OpDecl where
  /-- What it computes. -/
  opcode : Opcode
  /-- Offset of its instruction. -/
  address : UInt64 := 0
  /-- Names of its operands. -/
  inputs : List String := []
  /-- Name of its result. -/
  output : Option String := none
  /-- Whether it is unreachable. -/
  dead : Bool := false
  /-- How it leaves the function, if it does. -/
  halt : HaltKind := .normal
  /-- Whether the type of the result must not be inferred from how it is read. -/
  stopsPropagation : Bool := false
  /-- Whether an indirect effect creates its value. -/
  creation : Bool := false
  deriving DecidableEq, Repr, Inhabited

/-- A type suggested for an input. -/
structure RecommendationDecl where
  /-- Name of the space of the input. -/
  space : String
  /-- Offset of the input. -/
  offset : UInt64
  /-- The suggested type expression. -/
  type : String
  deriving DecidableEq, Repr, Inhabited

/-- What is declared about the returned value. -/
structure PrototypeDecl where
  /-- Whether the returned type is fixed. -/
  outputLocked : Bool := false
  /-- The returned type expression. -/
  outputType : Option String := none
  deriving DecidableEq, Repr, Inhabited

/-- The description of a function. -/
structure Description where
  /-- Name of the function. -/
  name : String
  /-- Size of a pointer when none is given. -/
  pointerSize : UInt32 := 8
  /-- Address spaces besides the space of constants. -/
  spaces : List SpaceDecl
  /-- Name of the space of the frame. -/
  stackSpace : String
  /-- Data types in order of declaration. -/
  types : List TypeDecl := []
  /-- Symbols. -/
  symbols : List SymbolDecl := []
  /-- Values. -/
  varnodes : List VarnodeDecl
  /-- Ops. -/
  ops : List OpDecl
  /-- Suggested types. -/
  recommendations : List RecommendationDecl := []
  /-- Completed heritage passes by the name of the space. -/
  heritage : List (String × UInt32) := []
  /-- What is known of the returned value. -/
  prototype : PrototypeDecl := {}
  /-- Whether type recovery has started. -/
  typeRecoveryStarted : Bool := true
  deriving DecidableEq, Repr, Inhabited

end TypeRecovery
