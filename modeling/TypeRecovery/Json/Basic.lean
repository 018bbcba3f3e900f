import TypeRecovery.Decimal.Range

/-!
# Documents

A document is a tree of literals, lists and members. Everything that the text of a document can
distinguish and a reader may have to refuse is kept apart: the order and repetition of members,
how a number is written, and strings whose escapes leave half of a surrogate pair.
-/

namespace TypeRecovery

/-- A number as it is written. -/
inductive Number where
  /-- Plain digits. -/
  | natural (value : Nat)
  /-- A minus sign and plain digits, so that minus zero is kept apart from zero. -/
  | negative (magnitude : Nat)
  /-- Digits with a point or an exponent: `mantissa * 10 ^ exponent`. -/
  | decimal (isNegative : Bool) (mantissa : Nat) (exponent : Int)
  deriving DecidableEq, Repr

/-- The text of a string literal, absent when an escape leaves half of a surrogate pair. -/
abbrev Text := Option String

/-- A document. -/
inductive Json where
  | null
  | bool (value : Bool)
  | number (value : Number)
  | string (text : Text)
  | array (items : List Json)
  | object (members : List (Text × Json))
  deriving Repr

namespace Number

/-- Whether a number is read as a finite double. Its leading digits are rounded before they are
scaled. -/
def isFinite : Number → Bool
  | natural n => Decimal.scalesToFinite n 0
  | negative n => Decimal.scalesToFinite n 0
  | decimal _ mantissa exponent => Decimal.scalesToFinite mantissa exponent

end Number

namespace Json

/-- A string document. -/
def str (text : String) : Json := .string (some text)

/-- A natural number as a document. -/
def nat (n : Nat) : Json := .number (.natural n)

/-- An integer as a document. -/
def int (n : Int) : Json :=
  if n < 0 then .number (.negative n.natAbs) else .number (.natural n.toNat)

/-- A record with named members. -/
def record (members : List (String × Json)) : Json :=
  .object (members.map fun (key, value) => (some key, value))

/-- A list with one item for each element. -/
def list {α : Type} (encode : α → Json) (items : List α) : Json := .array (items.map encode)

/-- An optional value, absent as null. -/
def optional {α : Type} (encode : α → Json) : Option α → Json
  | none => .null
  | some value => encode value

end Json

end TypeRecovery
