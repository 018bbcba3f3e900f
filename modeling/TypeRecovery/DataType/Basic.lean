import TypeRecovery.Space

/-!
# Data types and the table that interns them

Every data type lives in a table and is known by its position in it. The table is append-only
and holds no two types with the same key, so equal types have equal positions. A type refers to
its components by position, and its components are always older than itself.
-/

namespace TypeRecovery

/-- The position of a data type in its table. -/
abbrev TypeId := Nat

/-- Coarse classification of a data type. -/
inductive Metatype where
  | void
  | unknown
  | int
  | uint
  | bool
  | code
  | float
  | ptr
  | array
  | struct
  | union
  | spacebase
  deriving DecidableEq, Repr, Inhabited

namespace Metatype

/-- Every metatype. -/
def all : List Metatype :=
  [void, unknown, int, uint, bool, code, float, ptr, array, struct, union, spacebase]

/-- Position in the order of specificity; lower is more specific. -/
def rank : Metatype → Nat
  | struct => 0
  | union => 1
  | array => 2
  | ptr => 3
  | float => 4
  | code => 5
  | bool => 6
  | uint => 7
  | int => 8
  | unknown => 9
  | spacebase => 10
  | void => 11

/-- The word for a metatype. -/
def name : Metatype → String
  | void => "void"
  | unknown => "unknown"
  | int => "int"
  | uint => "uint"
  | bool => "bool"
  | code => "code"
  | float => "float"
  | ptr => "ptr"
  | array => "array"
  | struct => "struct"
  | union => "union"
  | spacebase => "spacebase"

/-- The metatype that a word names. -/
def ofName? (name : String) : Option Metatype := all.find? (·.name = name)

end Metatype

/-- The types without components that have a size of their own. -/
inductive Atom where
  | unknown
  | int
  | uint
  | bool
  | code
  | float
  deriving DecidableEq, Repr, Inhabited

namespace Atom

/-- The classification of an atom. -/
def metatype : Atom → Metatype
  | unknown => .unknown
  | int => .int
  | uint => .uint
  | bool => .bool
  | code => .code
  | float => .float

/-- The atom of a metatype; metatypes without one give unknown bytes. -/
def ofMetatype : Metatype → Atom
  | .int => int
  | .uint => uint
  | .bool => bool
  | .code => code
  | .float => float
  | _ => unknown

/-- The name of the atom of `size` bytes. -/
def typeName (atom : Atom) (size : Nat) : String :=
  match atom with
  | unknown => "undefined" ++ toString size
  | code => "code"
  | atom => atom.metatype.name ++ toString size

end Atom

/-- A named component of a structure or union. -/
structure Field where
  /-- Byte at which the field starts. -/
  offset : Nat
  /-- Name of the field. -/
  name : String
  /-- Type of the field. -/
  type : TypeId
  deriving DecidableEq, Repr, Inhabited

/-- What a data type is made of. -/
inductive Shape where
  /-- No value at all. -/
  | void
  /-- Bytes without components. -/
  | atom (atom : Atom)
  /-- The address of a value, counted in units of `wordSize` bytes. -/
  | pointer (pointee : TypeId) (wordSize : Nat)
  /-- `count` elements in a row. -/
  | array (element : TypeId) (count : Nat)
  /-- Fields in increasing order of their offsets. -/
  | struct (fields : List Field)
  /-- Alternative fields, all at offset zero. -/
  | union (fields : List Field)
  /-- The contents of an address space, seen through its base register. -/
  | spacebase (space : SpaceId)
  deriving DecidableEq, Repr, Inhabited

namespace Shape

/-- The classification of a shape. -/
def metatype : Shape → Metatype
  | void => .void
  | atom a => a.metatype
  | pointer _ _ => .ptr
  | array _ _ => .array
  | struct _ => .struct
  | union _ => .union
  | spacebase _ => .spacebase

/-- The types a shape refers to. -/
def components : Shape → List TypeId
  | pointer pointee _ => [pointee]
  | array element _ => [element]
  | struct fields => fields.map (·.type)
  | union fields => fields.map (·.type)
  | _ => []

end Shape

/-- A data type. -/
structure DataType where
  /-- The name it is printed with. -/
  name : String
  /-- Its size in bytes. -/
  size : Nat
  /-- Its classification. -/
  metatype : Metatype
  /-- What it is made of. -/
  shape : Shape
  /-- The classification is the one of what it is made of. -/
  agrees : metatype = shape.metatype
  deriving DecidableEq, Repr

/-- The atom of `size` bytes. -/
def DataType.atom (size : Nat) (a : Atom) : DataType :=
  ⟨a.typeName size, size, a.metatype, .atom a, rfl⟩

/-- A data type as a table stores it. -/
structure TypeEntry extends DataType where
  /-- Its position in the table. -/
  id : TypeId
  deriving DecidableEq, Repr

/-- What tells the types of a table apart. Structures and unions are told apart by name alone,
and the contents of a space have one type whatever name it was given. -/
inductive TypeKey where
  | void
  | atom (size : Nat) (atom : Atom)
  | pointer (size : Nat) (pointee : TypeId) (wordSize : Nat)
  | array (element : TypeId) (count : Nat)
  | named (name : String)
  | spacebase (space : SpaceId)
  deriving DecidableEq, Repr

/-- The key of a data type. -/
def DataType.key (d : DataType) : TypeKey :=
  match d.shape with
  | .void => .void
  | .atom a => .atom d.size a
  | .pointer pointee wordSize => .pointer d.size pointee wordSize
  | .array element count => .array element count
  | .struct _ => .named d.name
  | .union _ => .named d.name
  | .spacebase space => .spacebase space

/-- An append-only table of data types with an index of their keys. -/
structure TypeTable where
  /-- The types in the order of their creation. -/
  types : Array TypeEntry
  /-- The position of the type with a key, in the order of creation too. -/
  index : List (TypeKey × TypeId)
  /-- Size of a pointer when none is given. -/
  pointerSize : Nat
  /-- A type is stored at its own position. -/
  positions : ∀ (id : TypeId) (h : id < types.size), types[id].id = id
  /-- The index lists every type. -/
  indexed : index = types.toList.map fun entry => (entry.key, entry.id)
  deriving DecidableEq, Repr

/-- A type together with the table that holds it. -/
structure Interned where
  /-- The position of the type. -/
  id : TypeId
  /-- The table after the type was interned. -/
  table : TypeTable
  deriving DecidableEq, Repr

/-- An interned type as the answer of a call. -/
def Interned.answer (t : Interned) : Answer TypeTable TypeId := .ok t.id t.table

/-- The type that a call gave, if it succeeded. -/
def Answer.interned : Answer TypeTable TypeId → Except GraphError Interned
  | .ok id table => .ok ⟨id, table⟩
  | .error e _ => .error e

namespace TypeTable

/-- The table without types. -/
def empty (pointerSize : Nat) : TypeTable where
  types := #[]
  index := []
  pointerSize
  positions _ h := absurd h (Nat.not_lt_zero _)
  indexed := rfl

instance : Inhabited TypeTable := ⟨empty 0⟩

/-- The type at a position; `void` stands in for a missing one. -/
def get (t : TypeTable) (id : TypeId) : TypeEntry :=
  (t.types[id]?).getD ⟨⟨"void", 0, .void, .void, rfl⟩, id⟩

/-- The size of a type in bytes. -/
def size (t : TypeTable) (id : TypeId) : Nat := (t.get id).size

/-- The name of a type. -/
def name (t : TypeTable) (id : TypeId) : String := (t.get id).name

/-- The shape of a type. -/
def shape (t : TypeTable) (id : TypeId) : Shape := (t.get id).shape

/-- The classification of a type. -/
def metatype (t : TypeTable) (id : TypeId) : Metatype := (t.get id).metatype

/-- The type a pointer points to. -/
def pointee? (t : TypeTable) (id : TypeId) : Option TypeId :=
  match t.shape id with
  | .pointer pointee _ => some pointee
  | _ => none

/-- Bytes per unit of a pointer; one for other types. -/
def wordSize (t : TypeTable) (id : TypeId) : Nat :=
  match t.shape id with
  | .pointer _ wordSize => wordSize
  | _ => 1

/-- Whether a type is a pointer to the contents of an address space. -/
def isSpacebasePointer (t : TypeTable) (id : TypeId) : Bool :=
  match t.pointee? id with
  | some pointee => t.metatype pointee = .spacebase
  | none => false

/-- The oldest type with a name. -/
def findByName? (t : TypeTable) (name : String) : Option TypeId :=
  t.types.findIdx? (·.name = name)

/-- The position of the type with a key. -/
def find? (t : TypeTable) (key : TypeKey) : Option TypeId := t.index.lookup key

/-- Store a data type at the end of the table and in the index. -/
def push (t : TypeTable) (d : DataType) : TypeTable where
  types := t.types.push ⟨d, t.types.size⟩
  index := t.index ++ [(d.key, t.types.size)]
  pointerSize := t.pointerSize
  positions id h := by
    rw [Array.getElem_push]
    split
    · exact t.positions id ‹_›
    · rename_i hnew
      rw [Array.size_push] at h
      exact (Nat.eq_of_lt_succ_of_not_lt h hnew).symm
  indexed := by
    rw [t.indexed, Array.toList_push, List.map_append]
    rfl

/-- The position of a data type, which is stored in the table unless its key is there. -/
def intern (t : TypeTable) (d : DataType) : Interned :=
  match t.find? d.key with
  | some id => ⟨id, t⟩
  | none => ⟨t.types.size, t.push d⟩

/-- The type without values. -/
def void (t : TypeTable) : Interned := t.intern ⟨"void", 0, .void, .void, rfl⟩

/-- An atom of a given size. -/
def atom (t : TypeTable) (size : Nat) (a : Atom) : Interned := t.intern (.atom size a)

/-- The atom of a metatype; metatypes without one give unknown bytes. -/
def base (t : TypeTable) (size : Nat) (metatype : Metatype) : Interned :=
  t.atom size (Atom.ofMetatype metatype)

/-- Bytes of which nothing is known. -/
def unknown (t : TypeTable) (size : Nat) : Interned := t.atom size .unknown

/-- A pointer of `size` bytes. Units of zero bytes become single bytes. -/
def pointerSized (t : TypeTable) (size : Nat) (pointee : TypeId) (wordSize : Nat) : Interned :=
  t.intern ⟨t.name pointee ++ " *", size, .ptr, .pointer pointee (max wordSize 1), rfl⟩

/-- A pointer of the table's own pointer size. -/
def pointer (t : TypeTable) (pointee : TypeId) (wordSize : Nat) : Interned :=
  t.pointerSized t.pointerSize pointee wordSize

/-- A pointer that never nests three pointers: a pointer to a pointer is replaced by unknown
bytes of its size, and a pointer to unknown bytes of its own size is itself the result. -/
def pointerNoDepth (t : TypeTable) (size : Nat) (pointee : TypeId) (wordSize : Nat) : Interned :=
  match t.pointee? pointee with
  | none => t.pointerSized size pointee wordSize
  | some inner =>
    let blurred := t.unknown (t.size pointee)
    match t.metatype inner with
    | .ptr => blurred.table.pointerSized size blurred.id wordSize
    | .unknown =>
      if t.size inner = t.size pointee then ⟨pointee, t⟩
      else blurred.table.pointerSized size blurred.id wordSize
    | _ => t.pointerSized size pointee wordSize

/-- The element of an array, and any other type itself. -/
def stripArray (t : TypeTable) (id : TypeId) : TypeId :=
  match t.shape id with
  | .array element _ => element
  | _ => id

/-- A pointer to a type, or to its element if it is an array. -/
def pointerStripArray (t : TypeTable) (size : Nat) (pointee : TypeId) (wordSize : Nat) :
    Interned :=
  t.pointerSized size (t.stripArray pointee) wordSize

/-- The type of `count` elements in a row, whose size has to fit 32 bits. -/
def tryArray (t : TypeTable) (element : TypeId) (count : Nat) : Answer TypeTable TypeId :=
  let name := t.name element ++ "[" ++ toString count ++ "]"
  if count = 0 ∨ t.size element = 0 then .error (.invalidType name .emptyArray) t
  else if t.size element * count < UInt32.size then
    (t.intern ⟨name, t.size element * count, .array, .array element count, rfl⟩).answer
  else .error (.invalidType name .arrayOverflow) t

/-- The type of `count` elements in a row, where there is one. -/
def array (t : TypeTable) (element : TypeId) (count : Nat) : Except GraphError Interned :=
  (t.tryArray element count).interned

/-- The first byte after a field. -/
def fieldEnd (t : TypeTable) (field : Field) : Nat := field.offset + t.size field.type

/-- The first field that starts before `start` or before the end of its predecessor, or that ends
after `size`. -/
def misplacedField? (t : TypeTable) (size : Nat) : Nat → List Field → Option Field
  | _, [] => none
  | start, field :: rest =>
    if start ≤ field.offset ∧ t.fieldEnd field ≤ size then
      t.misplacedField? size (t.fieldEnd field) rest
    else some field

/-- Give a name to a layout. Repeating a declaration gives the same type again. -/
def tryNamed (t : TypeTable) (d : DataType) : Answer TypeTable TypeId :=
  match t.find? d.key with
  | some id =>
    if t.size id = d.size ∧ t.shape id = d.shape then .ok id t
    else .error (.invalidType d.name .redeclared) t
  | none => (t.intern d).answer

/-- Declare a structure, whose fields are in order, do not overlap and end within it. -/
def tryStruct (t : TypeTable) (name : String) (size : Nat) (fields : List Field) :
    Answer TypeTable TypeId :=
  match t.misplacedField? size 0 fields with
  | some field => .error (.invalidType name (.misplacedField field.name)) t
  | none => t.tryNamed ⟨name, size, .struct, .struct fields, rfl⟩

/-- Declare a union, whose fields are all at its start and no wider than it. -/
def tryUnion (t : TypeTable) (name : String) (size : Nat) (fields : List Field) :
    Answer TypeTable TypeId :=
  match fields.find? fun field => field.offset ≠ 0 ∨ size < t.size field.type with
  | some field => .error (.invalidType name (.oversizedField field.name)) t
  | none => t.tryNamed ⟨name, size, .union, .union fields, rfl⟩

/-- The declared structure, where the declaration is in order. -/
def struct (t : TypeTable) (name : String) (size : Nat) (fields : List Field) :
    Except GraphError Interned :=
  (t.tryStruct name size fields).interned

/-- The declared union, where the declaration is in order. -/
def union (t : TypeTable) (name : String) (size : Nat) (fields : List Field) :
    Except GraphError Interned :=
  (t.tryUnion name size fields).interned

/-- The type of the contents of an address space. -/
def spacebase (t : TypeTable) (space : SpaceId) (spaceName : String) : Interned :=
  t.intern ⟨spaceName ++ "base", 1, .spacebase, .spacebase space, rfl⟩

end TypeTable

end TypeRecovery
