import TypeRecovery.Json.Basic

/-!
# Typed views of documents

Small decoders that a record of a known format is put together from. A record is written as an
object with named members, or as an array of its fields in the order of their declaration.
-/

namespace TypeRecovery

namespace Json

/-- A document that is text. -/
def text? : Json → Option String
  | .string text => text
  | _ => none

/-- A document that is a truth value. -/
def bool? : Json → Option Bool
  | .bool b => some b
  | _ => none

/-- A document that is a natural number in plain digits. -/
def nat? : Json → Option Nat
  | .number (.natural n) => some n
  | _ => none

/-- A natural number of at most 32 bits. -/
def uint32? (j : Json) : Option UInt32 :=
  j.nat?.bind fun n => if n < UInt32.size then some (UInt32.ofNat n) else none

/-- A natural number of at most 64 bits. -/
def uint64? (j : Json) : Option UInt64 :=
  j.nat?.bind fun n => if n < UInt64.size then some (UInt64.ofNat n) else none

/-- A list whose items are all of one kind. -/
def list? {α : Type} (decode : Json → Option α) : Json → Option (List α)
  | .array items => items.mapM decode
  | _ => none

/-- A value that may be null. -/
def nullable? {α : Type} (decode : Json → Option α) : Json → Option (Option α)
  | .null => some none
  | j => (decode j).map some

/-- A word out of a closed set, written as itself or as the only key of an object with null. -/
def word? {α : Type} (ofName? : String → Option α) : Json → Option α
  | .string (some name) => ofName? name
  | .object [(some name, .null)] => ofName? name
  | _ => none

/-- The value of a field, by the name of the field. -/
abbrev Fields := String → Option Json

/-- How often a member occurs. -/
def occurrences (members : List (Text × Json)) (name : String) : Nat :=
  members.countP fun member => member.1 = some name

/-- The fields of an object; all keys have to be text, and no known key may be repeated. -/
def memberFields? (names : List String) (members : List (Text × Json)) : Option Fields :=
  if members.all (·.1.isSome) && names.all fun name => occurrences members name ≤ 1 then
    some fun name => (members.find? fun member => member.1 = some name).map (·.2)
  else none

/-- The fields of a record with the given names in order of declaration. -/
def fields? (names : List String) : Json → Option Fields
  | .array items =>
    if items.length ≤ names.length then
      some fun name => (names.findIdx? (· = name)).bind fun i => items[i]?
    else none
  | .object members => memberFields? names members
  | _ => none

/-- A field that has to be there. -/
def Fields.required {α : Type} (f : Fields) (name : String) (decode : Json → Option α) : Option α :=
  (f name).bind decode

/-- A field with a value to take if it is not there. -/
def Fields.orElse {α : Type} (f : Fields) (name : String) (decode : Json → Option α)
    (value : α) : Option α :=
  match f name with
  | none => some value
  | some j => decode j

mutual

/-- Whether all strings of a document are text, its numbers finite doubles and its nesting at
most `depth`. -/
def isPlain (depth : Nat) : Json → Bool
  | .null => true
  | .bool _ => true
  | .number n => n.isFinite
  | .string text => text.isSome
  | .array items => 0 < depth && allPlain (depth - 1) items
  | .object members => 0 < depth && allPlainMembers (depth - 1) members

/-- Whether all items are plain. -/
def allPlain (depth : Nat) : List Json → Bool
  | [] => true
  | item :: items => isPlain depth item && allPlain depth items

/-- Whether all members are plain. -/
def allPlainMembers (depth : Nat) : List (Text × Json) → Bool
  | [] => true
  | (key, value) :: members =>
    key.isSome && isPlain depth value && allPlainMembers depth members

end

/-- A record that starts with a tag: the tag, and the document without it. In an object the tag is
the member `tag`; in an array it is the first item. -/
def tagged? (tag : String) : Json → Option (String × Json)
  | .object members =>
    match members.filter fun member => member.1 = some tag with
    | [(_, .string (some name))] =>
      some (name, .object (members.filter fun member => member.1 ≠ some tag))
    | _ => none
  | .array (.string (some name) :: items) => some (name, .array items)
  | _ => none

end Json

end TypeRecovery
