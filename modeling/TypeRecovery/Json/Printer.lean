import TypeRecovery.Json.Basic

/-!
# Writing documents

Documents are written either on one line without blanks, or with one item or member on each line
and two spaces of indentation for each level.
-/

namespace TypeRecovery

/-- The digits of a natural number. -/
def decimalText (n : Nat) : String := String.ofList (Nat.toDigits 10 n)

/-- The digits of `mantissa * 10 ^ -places` with the point set. -/
def pointText (mantissa places : Nat) : String :=
  let digits := Nat.toDigits 10 mantissa
  let padded := List.replicate (places + 1 - digits.length) '0' ++ digits
  let whole := padded.length - places
  String.ofList (padded.take whole ++ '.' :: padded.drop whole)

/-- The text of a number. -/
def Number.render : Number → String
  | natural n => decimalText n
  | negative n => "-" ++ decimalText n
  | decimal isNegative mantissa exponent =>
    (if isNegative then "-" else "") ++
      if exponent < 0 then pointText mantissa exponent.natAbs
      else decimalText mantissa ++ "e" ++ decimalText exponent.natAbs

namespace Json

/-- The hexadecimal digit of a number below sixteen. -/
def hexChar (n : Nat) : Char := if n < 10 then Char.ofNat (48 + n) else Char.ofNat (87 + n)

/-- A character as it is written inside a string literal. -/
def escapeChar (c : Char) : List Char :=
  if c = '"' then ['\\', '"']
  else if c = '\\' then ['\\', '\\']
  else if c = '\x08' then ['\\', 'b']
  else if c = '\x0c' then ['\\', 'f']
  else if c = '\n' then ['\\', 'n']
  else if c = '\r' then ['\\', 'r']
  else if c = '\t' then ['\\', 't']
  else if c.toNat < 32 then ['\\', 'u', '0', '0', hexChar (c.toNat / 16), hexChar (c.toNat % 16)]
  else [c]

/-- A string literal. -/
def quote (text : String) : String :=
  "\"" ++ String.ofList (text.toList.flatMap escapeChar) ++ "\""

/-- A string literal; text that is not there is written as half of a surrogate pair. -/
def quoteText : Text → String
  | some text => quote text
  | none => "\"\\ud800\""

mutual

/-- A document on one line without blanks. -/
def render : Json → String
  | .null => "null"
  | .bool true => "true"
  | .bool false => "false"
  | .number n => n.render
  | .string text => quoteText text
  | .array items => "[" ++ String.intercalate "," (renderItems items) ++ "]"
  | .object members => "\x7b" ++ String.intercalate "," (renderMembers members) ++ "\x7d"

/-- The items of a list, each on one line without blanks. -/
def renderItems : List Json → List String
  | [] => []
  | item :: items => render item :: renderItems items

/-- The members of a record, each on one line without blanks. -/
def renderMembers : List (Text × Json) → List String
  | [] => []
  | (key, value) :: members => (quoteText key ++ ":" ++ render value) :: renderMembers members

end

/-- The start of a line at a level of indentation. -/
def lineBreak (level : Nat) : String := "\n" ++ String.ofList (List.replicate (2 * level) ' ')

/-- Lines between an opening and a closing bracket; without lines the brackets touch. -/
def bracket (level : Nat) (opening closing : String) (lines : List String) : String :=
  if lines.isEmpty then opening ++ closing
  else
    opening ++ lineBreak (level + 1)
      ++ String.intercalate ("," ++ lineBreak (level + 1)) lines
      ++ lineBreak level ++ closing

mutual

/-- A document with one item or member on each line, at a level of indentation. -/
def prettyAt (level : Nat) : Json → String
  | .null => "null"
  | .bool true => "true"
  | .bool false => "false"
  | .number n => n.render
  | .string text => quoteText text
  | .array items => bracket level "[" "]" (prettyItems (level + 1) items)
  | .object members => bracket level "\x7b" "\x7d" (prettyMembers (level + 1) members)

/-- The items of a list at a level of indentation. -/
def prettyItems (level : Nat) : List Json → List String
  | [] => []
  | item :: items => prettyAt level item :: prettyItems level items

/-- The members of a record at a level of indentation. -/
def prettyMembers (level : Nat) : List (Text × Json) → List String
  | [] => []
  | (key, value) :: members =>
    (quoteText key ++ ": " ++ prettyAt level value) :: prettyMembers level members

end

/-- A document with one item or member on each line. -/
def pretty (j : Json) : String := prettyAt 0 j

end Json

end TypeRecovery
