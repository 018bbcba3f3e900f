import TypeRecovery.DataType.Basic
import TypeRecovery.Scan

/-!
# Type expressions

A type expression is a name followed by suffixes, `*` for a pointer and `[n]` for an array. Blanks
may stand at both ends, before a suffix and around a count.
-/

namespace TypeRecovery

/-- A type expression. -/
inductive TypeExpr where
  /-- The name of a type. -/
  | atom (name : String)
  /-- A pointer to a type. -/
  | pointer (target : TypeExpr)
  /-- `count` elements of a type. -/
  | array (element : TypeExpr) (count : Nat)
  deriving DecidableEq, Repr, Inhabited

namespace TypeExpr

/-- White space: the characters that may surround the parts of an expression. -/
def isBlank (c : Char) : Bool :=
  let n := c.toNat
  (9 ≤ n && n ≤ 13) || n = 0x20 || n = 0x85 || n = 0xA0 || n = 0x1680
    || (0x2000 ≤ n && n ≤ 0x200A) || n = 0x2028 || n = 0x2029 || n = 0x202F || n = 0x205F
    || n = 0x3000

/-- The characters without the blanks at both ends. -/
def trim (cs : List Char) : List Char :=
  ((cs.dropWhile isBlank).reverse.dropWhile isBlank).reverse

/-- A 32-bit number: digits, with an optional plus sign before them. -/
def count? (cs : List Char) : Option Nat :=
  let digits :=
    match cs with
    | '+' :: rest => rest
    | cs => cs
  (Scan.digits? digits).filter (· < UInt32.size)

/-- Read an expression of at most `fuel` suffixes from the right. -/
def readSuffixes : (fuel : Nat) → List Char → Except GraphError TypeExpr
  | 0, cs => .error (.unknownType (String.ofList cs))
  | fuel + 1, cs =>
    let cs := trim cs
    match cs.reverse with
    | '*' :: rest => (readSuffixes fuel rest.reverse).map pointer
    | ']' :: rest =>
      match rest.span (· ≠ '[') with
      | (count, _ :: element) =>
        match count? (trim count.reverse) with
        | none => .error (.unknownType (String.ofList cs))
        | some n => (readSuffixes fuel element.reverse).map (array · n)
      | (_, []) => .error (.unknownType (String.ofList cs))
    | _ => .ok (atom (String.ofList cs))

/-- Read an expression. Each suffix takes a character, so the length bounds their number. -/
def parse (text : String) : Except GraphError TypeExpr :=
  readSuffixes (text.length + 1) text.toList

/-- What names in type expressions mean. -/
structure Names where
  /-- Declared types, the latest first. -/
  declared : List (String × TypeId) := []
  /-- The space of the frame. -/
  stack : SpaceId
  /-- Its name. -/
  stackName : String
  deriving DecidableEq, Repr, Inhabited

/-- The words that an atom's size follows. -/
def sizedWords : List (String × Atom) :=
  [("undefined", .unknown), ("uint", .uint), ("int", .int), ("bool", .bool), ("float", .float)]

/-- The size and atom of a name such as `int4`. -/
def sizedAtom? (name : String) : Option (Nat × Atom) :=
  sizedWords.findSome? fun entry =>
    (Scan.afterWord? entry.1.toList name.toList).bind fun rest =>
      ((count? rest).filter (0 < ·)).map fun size => (size, entry.2)

/-- The type with a name; declared names come before built-in ones. -/
def resolveName (names : Names) (types : TypeTable) (name : String) : Except GraphError Interned :=
  match names.declared.lookup name with
  | some id => .ok ⟨id, types⟩
  | none =>
    if name = "void" then .ok types.void
    else if name = "code" then .ok (types.atom 1 .code)
    else if name = "spacebase" then .ok (types.spacebase names.stack names.stackName)
    else
      match sizedAtom? name with
      | some (size, a) => .ok (types.atom size a)
      | none => .error (.unknownType name)

/-- The type that an expression denotes. -/
def resolve (names : Names) (types : TypeTable) : TypeExpr → Except GraphError Interned
  | atom name => resolveName names types name
  | pointer target =>
    match resolve names types target with
    | .ok t => .ok (t.table.pointer t.id 1)
    | .error e => .error e
  | array element count =>
    match resolve names types element with
    | .ok t => t.table.array t.id count
    | .error e => .error e

/-- The type that the text of an expression denotes. -/
def denote (names : Names) (types : TypeTable) (text : String) : Except GraphError Interned :=
  match parse text with
  | .ok e => resolve names types e
  | .error e => .error e

end TypeExpr

end TypeRecovery
