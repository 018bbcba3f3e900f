import TypeRecovery.Json.Basic
import TypeRecovery.Scan

/-!
# Reading documents

The text of a document is read from left to right. Each function takes the characters that are
left and returns what it read with the characters after it.
-/

namespace TypeRecovery

namespace Json

open Scan (digitsValue)

/-- The blanks that may stand between tokens. -/
def isBlank (c : Char) : Bool := c = ' ' || c = '\n' || c = '\t' || c = '\r'

/-- The characters from the first one that is no blank. -/
def skipBlanks (cs : List Char) : List Char := cs.dropWhile isBlank

/-- What stands between the quotes of a string literal: characters and 16-bit units. -/
inductive Piece where
  /-- A character, written as itself or by a short escape. -/
  | char (c : Char)
  /-- A code unit written by its four digits. -/
  | unit (value : Nat)
  deriving DecidableEq, Repr

/-- The character that a short escape stands for. -/
def shortEscape? : Char → Option Char
  | '"' => some '"'
  | '\\' => some '\\'
  | '/' => some '/'
  | 'b' => some '\x08'
  | 'f' => some '\x0c'
  | 'n' => some '\n'
  | 'r' => some '\r'
  | 't' => some '\t'
  | _ => none

/-- Where the reader of a string literal is. -/
inductive Mode where
  /-- Between pieces. -/
  | plain
  /-- After a backslash. -/
  | escape
  /-- Inside a code unit, with the number of digits to come and the value of those read. -/
  | unit (missing : Nat) (value : Nat)

/-- The pieces of a string literal up to its closing quote, in front of those in reverse in
`done`, and the characters after it. -/
def scanString : Mode → List Piece → List Char → Option (List Piece × List Char)
  | _, _, [] => none
  | .plain, done, c :: rest =>
    if c = '"' then some (done.reverse, rest)
    else if c = '\\' then scanString .escape done rest
    else if c.toNat < 32 then none
    else scanString .plain (.char c :: done) rest
  | .escape, done, c :: rest =>
    if c = 'u' then scanString (.unit 4 0) done rest
    else
      match shortEscape? c with
      | some e => scanString .plain (.char e :: done) rest
      | none => none
  | .unit missing value, done, c :: rest =>
    match Scan.hexDigit? c with
    | none => none
    | some d =>
      if missing ≤ 1 then scanString .plain (.unit (16 * value + d) :: done) rest
      else scanString (.unit (missing - 1) (16 * value + d)) done rest

/-- Whether a code unit is the first half of a surrogate pair. -/
def isHighSurrogate (u : Nat) : Bool := 0xD800 ≤ u && u < 0xDC00

/-- Whether a code unit is the second half of a surrogate pair. -/
def isLowSurrogate (u : Nat) : Bool := 0xDC00 ≤ u && u < 0xE000

/-- The characters that pieces stand for, absent when half of a surrogate pair is left over. -/
def joinPieces : List Piece → Option (List Char)
  | [] => some []
  | .char c :: rest => (joinPieces rest).map (c :: ·)
  | .unit u :: rest =>
    if isHighSurrogate u then
      match rest with
      | .unit v :: rest =>
        if isLowSurrogate v then
          (joinPieces rest).map
            (Char.ofNat (0x10000 + (u - 0xD800) * 0x400 + (v - 0xDC00)) :: ·)
        else none
      | _ => none
    else if isLowSurrogate u then none
    else (joinPieces rest).map (Char.ofNat u :: ·)

/-- The text of a string literal whose opening quote was read. -/
def readText? (cs : List Char) : Option (Text × List Char) :=
  (scanString .plain [] cs).map fun (pieces, rest) => ((joinPieces pieces).map String.ofList, rest)

/-- A non-empty run of digits. -/
def readDigits? (cs : List Char) : Option (List Char × List Char) :=
  match cs.span Char.isDigit with
  | ([], _) => none
  | found => some found

/-- The digits before the point, which start with a zero only if that is all of them. -/
def readWhole? : List Char → Option (List Char × List Char)
  | '0' :: rest => some (['0'], rest)
  | cs => readDigits? cs

/-- The digits after the point, if there is a point. -/
def readFraction? : List Char → Option (Option (List Char) × List Char)
  | '.' :: rest => (readDigits? rest).map fun (digits, rest) => (some digits, rest)
  | cs => some (none, cs)

/-- The exponent, if there is one. -/
def readExponent? (cs : List Char) : Option (Option Int × List Char) :=
  match cs with
  | c :: rest =>
    if c = 'e' ∨ c = 'E' then
      match rest with
      | '-' :: rest =>
        (readDigits? rest).map fun (ds, rest) => (some (-(digitsValue ds : Int)), rest)
      | '+' :: rest => (readDigits? rest).map fun (ds, rest) => (some (digitsValue ds : Int), rest)
      | rest => (readDigits? rest).map fun (ds, rest) => (some (digitsValue ds : Int), rest)
    else some (none, cs)
  | [] => some (none, cs)

/-- A number without its sign. -/
def readMagnitude? (isNegative : Bool) (cs : List Char) : Option (Number × List Char) := do
  let (whole, cs) ← readWhole? cs
  let (fraction, cs) ← readFraction? cs
  let (exponent, cs) ← readExponent? cs
  match fraction, exponent with
  | none, none =>
    let n := digitsValue whole
    return (if isNegative then .negative n else .natural n, cs)
  | fraction, exponent =>
    let after := fraction.getD []
    return (.decimal isNegative (digitsValue (whole ++ after)) (exponent.getD 0 - after.length), cs)

/-- A number. -/
def readNumber? : List Char → Option (Number × List Char)
  | '-' :: rest => readMagnitude? true rest
  | cs => readMagnitude? false cs

/-- The items of a list after its opening bracket, at most `fuel` of them. -/
def readItems? (value : List Char → Option (Json × List Char)) :
    (fuel : Nat) → List Char → Option (List Json × List Char)
  | 0, _ => none
  | fuel + 1, cs =>
    match value cs with
    | none => none
    | some (item, rest) =>
      match skipBlanks rest with
      | ',' :: rest => (readItems? value fuel rest).map fun (items, rest) => (item :: items, rest)
      | ']' :: rest => some ([item], rest)
      | _ => none

/-- A member of a record: its key, a colon and its value. -/
def readMember? (value : List Char → Option (Json × List Char)) (cs : List Char) :
    Option ((Text × Json) × List Char) :=
  match skipBlanks cs with
  | '"' :: rest =>
    match readText? rest with
    | none => none
    | some (key, rest) =>
      match skipBlanks rest with
      | ':' :: rest => (value rest).map fun (item, rest) => ((key, item), rest)
      | _ => none
  | _ => none

/-- The members of a record after its opening brace, at most `fuel` of them. -/
def readMembers? (value : List Char → Option (Json × List Char)) :
    (fuel : Nat) → List Char → Option (List (Text × Json) × List Char)
  | 0, _ => none
  | fuel + 1, cs =>
    match readMember? value cs with
    | none => none
    | some (member, rest) =>
      match skipBlanks rest with
      | ',' :: rest =>
        (readMembers? value fuel rest).map fun (members, rest) => (member :: members, rest)
      | '\x7d' :: rest => some ([member], rest)
      | _ => none

/-- A document, whose nesting and lists are no longer than `fuel`. -/
def readValue? : (fuel : Nat) → List Char → Option (Json × List Char)
  | 0, _ => none
  | fuel + 1, cs =>
    match skipBlanks cs with
    | '"' :: rest => (readText? rest).map fun (text, rest) => (.string text, rest)
    | '[' :: rest =>
      match skipBlanks rest with
      | ']' :: rest => some (.array [], rest)
      | rest =>
        (readItems? (readValue? fuel) fuel rest).map fun (items, rest) => (.array items, rest)
    | '\x7b' :: rest =>
      match skipBlanks rest with
      | '\x7d' :: rest => some (.object [], rest)
      | rest =>
        (readMembers? (readValue? fuel) fuel rest).map fun (members, rest) =>
          (.object members, rest)
    | 'n' :: rest => (Scan.afterWord? ['u', 'l', 'l'] rest).map fun rest => (.null, rest)
    | 't' :: rest => (Scan.afterWord? ['r', 'u', 'e'] rest).map fun rest => (.bool true, rest)
    | 'f' :: rest => (Scan.afterWord? ['a', 'l', 's', 'e'] rest).map fun rest => (.bool false, rest)
    | cs => (readNumber? cs).map fun (n, rest) => (.number n, rest)

/-- The document that a text denotes, with nothing but blanks around it. -/
def parse? (text : String) : Option Json :=
  let cs := text.toList
  match readValue? (cs.length + 1) cs with
  | some (value, rest) => if (skipBlanks rest).isEmpty then some value else none
  | none => none

end Json

end TypeRecovery
