import TypeRecovery.Word
import TypeRecovery.Error

/-!
# Address spaces

Values live at offsets of address spaces. The space of constants, in which the offset of a value
is the value itself, always exists and always comes first.
-/

namespace TypeRecovery

/-- The position of an address space in its table. -/
abbrev SpaceId := Nat

/-- The kind of storage an address space models. -/
inductive SpaceKind where
  /-- Constants: the offset is the value. -/
  | constant
  /-- Registers and memory. -/
  | processor
  /-- The local frame, addressed relative to a base register. -/
  | stack
  /-- Temporaries of a single instruction. -/
  | unique
  deriving DecidableEq, Repr, Inhabited

/-- Every kind of storage. -/
def SpaceKind.all : List SpaceKind := [constant, processor, stack, unique]

/-- The word for a kind of storage. -/
def SpaceKind.name : SpaceKind → String
  | constant => "constant"
  | processor => "processor"
  | stack => "stack"
  | unique => "unique"

/-- The kind of storage that a word names. -/
def SpaceKind.ofName? (name : String) : Option SpaceKind := all.find? (·.name = name)

/-- An address space. -/
structure Space where
  /-- Unique name. -/
  name : String
  /-- Kind of storage. -/
  kind : SpaceKind
  /-- Bytes of an address. -/
  addressSize : Nat
  /-- Bytes of an addressable unit, never zero. -/
  wordSize : Nat
  /-- Whether the most significant byte of a value comes first. -/
  bigEndian : Bool
  deriving DecidableEq, Repr, Inhabited

namespace Space

/-- The mask of all valid offsets. -/
def mask (s : Space) : UInt64 := byteMask s.addressSize

/-- An offset reduced to the space. -/
def wrap (s : Space) (offset : UInt64) : UInt64 := offset &&& s.mask

/-- The address of the unit that holds a byte. -/
def unitOfByte (s : Space) (offset : UInt64) : UInt64 :=
  if s.wordSize ≤ 1 then offset else offset / UInt64.ofNat s.wordSize

/-- The space of constants. -/
def constants : Space where
  name := "const"
  kind := .constant
  addressSize := 8
  wordSize := 1
  bigEndian := false

end Space

/-- A place in an address space. -/
structure Address where
  /-- The space. -/
  space : SpaceId
  /-- The offset in it. -/
  offset : UInt64
  deriving DecidableEq, Repr, Inhabited

/-- The address spaces of a function, the space of constants first. -/
structure SpaceTable where
  /-- The spaces in the order of their identifiers. -/
  spaces : Array Space
  deriving DecidableEq, Repr, Inhabited

namespace SpaceTable

/-- The table that holds only the space of constants. -/
def initial : SpaceTable := ⟨#[Space.constants]⟩

/-- The identifier of the space of constants. -/
def constantSpace : SpaceId := 0

/-- The most spaces a table can hold. -/
def capacity : Nat := 256

/-- The space with an identifier. -/
def get? (t : SpaceTable) (id : SpaceId) : Option Space := t.spaces[id]?

/-- The space with an identifier; the space of constants stands in for a missing one. -/
def get (t : SpaceTable) (id : SpaceId) : Space := (t.get? id).getD Space.constants

/-- The identifier of the space with a name. -/
def find? (t : SpaceTable) (name : String) : Option SpaceId := t.spaces.findIdx? (·.name = name)

/-- The identifier of the first processor space, which holds ordinary data. -/
def dataSpace? (t : SpaceTable) : Option SpaceId := t.spaces.findIdx? (·.kind = .processor)

/-- Bytes per unit of ordinary data; single bytes when there is no data space. -/
def dataWordSize (t : SpaceTable) : Nat := (t.dataSpace?.map fun id => (t.get id).wordSize).getD 1

/-- Add a space at the end of the table. Units of zero bytes become single bytes. -/
def add (t : SpaceTable) (name : String) (kind : SpaceKind) (addressSize wordSize : Nat) :
    Except GraphError SpaceTable :=
  if (t.find? name).isSome then .error (.invalidGraph (.duplicateSpace name))
  else if kind = .constant then .error (.invalidGraph .secondConstantSpace)
  else if t.spaces.size < capacity then
    .ok ⟨t.spaces.push
      { name, kind, addressSize, wordSize := max wordSize 1, bigEndian := false }⟩
  else .error (.invalidGraph .tooManySpaces)

/-- Set the byte order of a space; an identifier without a space changes nothing. -/
def setBigEndian (t : SpaceTable) (id : SpaceId) (bigEndian : Bool) : SpaceTable :=
  ⟨t.spaces.modify id fun s => { s with bigEndian }⟩

end SpaceTable

end TypeRecovery
