import TypeRecovery.Toml.Basic
import TypeRecovery.Decimal.Range
import TypeRecovery.Scan

/-!
# Strings, numbers and dates of configuration documents

Each function takes the characters that are left and returns what it read with the characters
after it.
-/

namespace TypeRecovery

namespace Toml

/-- Blanks within a line. -/
def isBlank (c : Char) : Bool := c = ' ' || c = '\t'

/-- The characters from the first one that is no blank. -/
def skipBlanks (cs : List Char) : List Char := cs.dropWhile isBlank

/-- Characters that may stand in comments and strings: all but control characters. -/
def isTextChar (c : Char) : Bool :=
  c = '\t' || (0x20 ≤ c.toNat && c.toNat ≤ 0x7E) || 0x80 ≤ c.toNat

/-- The character that a short escape stands for. -/
def shortEscape? : Char → Option Char
  | 'b' => some '\x08'
  | 't' => some '\t'
  | 'n' => some '\n'
  | 'f' => some '\x0c'
  | 'r' => some '\r'
  | '"' => some '"'
  | '\\' => some '\\'
  | _ => none

/-- The character with a code, if there is one. -/
def charOfCode? (n : Nat) : Option Char := if n.isValidChar then some (Char.ofNat n) else none

/-- Where the reader of a string is. -/
inductive StringMode where
  /-- Between characters. -/
  | plain
  /-- After a backslash. -/
  | escape
  /-- Inside the digits of a code, with the number of digits to come and the value so far. -/
  | code (missing : Nat) (value : Nat)
  /-- After some quotation marks, which may be part of the text or end it. -/
  | quotes (count : Nat)
  /-- After a carriage return, which a line feed has to follow. -/
  | lineFeed
  /-- After a backslash and blanks at the end of a line. -/
  | lineEnd
  /-- After a carriage return at the end of a line that a backslash joins to the next. -/
  | joinedLineFeed
  /-- In the blanks at the start of a line that a backslash joined. -/
  | joined
  deriving DecidableEq

/-- What kind of string is read. -/
structure StringKind where
  /-- The quotation mark. -/
  mark : Char
  /-- Whether backslashes start escapes. -/
  escapes : Bool
  /-- Whether the string may run over several lines and ends with three marks. -/
  multiLine : Bool

/-- The mode after a character between characters, and the text with it. -/
def plainStep (kind : StringKind) (text : List Char) (c : Char) :
    Option (StringMode × List Char) :=
  if c = kind.mark then some (.quotes 1, text)
  else if kind.escapes ∧ c = '\\' then some (.escape, text)
  else if kind.multiLine ∧ c = '\n' then some (.plain, '\n' :: text)
  else if kind.multiLine ∧ c = '\r' then some (.lineFeed, text)
  else if isTextChar c then some (.plain, c :: text)
  else none

/-- The mode after a character of an escape, and the text with it. -/
def escapeStep (kind : StringKind) (text : List Char) (c : Char) :
    Option (StringMode × List Char) :=
  if c = 'u' then some (.code 4 0, text)
  else if c = 'U' then some (.code 8 0, text)
  else if kind.multiLine ∧ isBlank c then some (.lineEnd, text)
  else if kind.multiLine ∧ c = '\n' then some (.joined, text)
  else if kind.multiLine ∧ c = '\r' then some (.joinedLineFeed, text)
  else (shortEscape? c).map fun e => (.plain, e :: text)

/-- The mode after a character that does not end the string, and the text, in reverse, with it. -/
def stringStep (kind : StringKind) (text : List Char) (mode : StringMode) (c : Char) :
    Option (StringMode × List Char) :=
  match mode with
  | .plain => plainStep kind text c
  | .escape => escapeStep kind text c
  | .code missing value =>
    (Scan.hexDigit? c).bind fun d =>
      if missing ≤ 1 then (charOfCode? (16 * value + d)).map fun e => (.plain, e :: text)
      else some (.code (missing - 1) (16 * value + d), text)
  | .quotes count =>
    if c = kind.mark then some (.quotes (count + 1), text)
    else plainStep kind (List.replicate count kind.mark ++ text) c
  | .lineFeed => if c = '\n' then some (.plain, '\n' :: text) else none
  | .lineEnd =>
    if isBlank c then some (.lineEnd, text)
    else if c = '\n' then some (.joined, text)
    else if c = '\r' then some (.joinedLineFeed, text)
    else none
  | .joinedLineFeed => if c = '\n' then some (.joined, text) else none
  | .joined =>
    if isBlank c ∨ c = '\n' then some (.joined, text)
    else if c = '\r' then some (.joinedLineFeed, text)
    else plainStep kind text c

/-- The number of marks that end a string and of those that may stand right before them. -/
def closingMarks (kind : StringKind) : Nat × Nat := if kind.multiLine then (3, 5) else (1, 1)

/-- Whether a string is over before the character `next`, when some marks were read. -/
def isClosed (kind : StringKind) (mode : StringMode) (next : Option Char) : Bool :=
  match mode with
  | .quotes count =>
    (closingMarks kind).1 ≤ count
      && (next ≠ some kind.mark || (closingMarks kind).2 ≤ count)
  | _ => false

/-- The text of a string that is over, in which marks before the closing ones are part of it. -/
def closedText (kind : StringKind) (mode : StringMode) (text : List Char) : String :=
  match mode with
  | .quotes count =>
    String.ofList (List.replicate (count - (closingMarks kind).1) kind.mark ++ text).reverse
  | _ => String.ofList text.reverse

/-- The text of a string after its opening marks. -/
def scanString (kind : StringKind) :
    StringMode → (text : List Char) → List Char → Option (String × List Char)
  | mode, text, [] => if isClosed kind mode none then some (closedText kind mode text, []) else none
  | mode, text, c :: rest =>
    if isClosed kind mode (some c) then some (closedText kind mode text, c :: rest)
    else
      match stringStep kind text mode c with
      | some (mode, text) => scanString kind mode text rest
      | none => none

/-- The characters without a line end at their start. -/
def dropLineEnd : List Char → List Char
  | '\n' :: rest => rest
  | '\r' :: '\n' :: rest => rest
  | cs => cs

/-- A string of one line. -/
def readLineString? : List Char → Option (String × List Char)
  | '"' :: rest => scanString ⟨'"', true, false⟩ .plain [] rest
  | '\'' :: rest => scanString ⟨'\'', false, false⟩ .plain [] rest
  | _ => none

/-- A string. Three marks open one of several lines, whose first line end is left out. -/
def readString? : List Char → Option (String × List Char)
  | '"' :: '"' :: '"' :: rest => scanString ⟨'"', true, true⟩ .plain [] (dropLineEnd rest)
  | '\'' :: '\'' :: '\'' :: rest => scanString ⟨'\'', false, true⟩ .plain [] (dropLineEnd rest)
  | cs => readLineString? cs

/-- The digits, as values below `base`, of a run in which single underscores may separate digits.
The run starts with a digit. -/
def scanDigits (base : Nat) : List Char → Option (List Nat × List Char)
  | [] => none
  | c :: rest =>
    match (Scan.hexDigit? c).filter (· < base) with
    | none => none
    | some d =>
      match rest with
      | '_' :: rest => (scanDigits base rest).map fun (ds, rest) => (d :: ds, rest)
      | rest =>
        match scanDigits base rest with
        | some (ds, rest) => some (d :: ds, rest)
        | none => some ([d], rest)

/-- The value of digits. -/
def digitsValue (base : Nat) (digits : List Nat) : Nat :=
  digits.foldl (fun n d => base * n + d) 0

/-- Whether a number is negative, and the characters after its sign. -/
def readSign : List Char → Bool × List Char
  | '-' :: rest => (true, rest)
  | '+' :: rest => (false, rest)
  | cs => (false, cs)

/-- The digits of a decimal number, which starts with a zero only if that is its only digit. -/
def readWhole? : List Char → Option (List Nat × List Char)
  | '0' :: rest => some ([0], rest)
  | cs => scanDigits 10 cs

/-- The integer with a sign and magnitude, if it fits 64 bits. -/
def int64? (isNegative : Bool) (magnitude : Nat) : Option Toml :=
  if isNegative then
    if 2 * magnitude ≤ UInt64.size then some (.integer (-(magnitude : Int))) else none
  else if 2 * magnitude < UInt64.size then some (.integer magnitude) else none

/-- An integer in a base, after the mark of the base. -/
def readBased? (base : Nat) (cs : List Char) : Option (Toml × List Char) := do
  let (digits, rest) ← scanDigits base cs
  let value ← int64? false (digitsValue base digits)
  return (value, rest)

/-- An integer. -/
def readInteger? : List Char → Option (Toml × List Char)
  | '0' :: 'x' :: rest => readBased? 16 rest
  | '0' :: 'o' :: rest => readBased? 8 rest
  | '0' :: 'b' :: rest => readBased? 2 rest
  | cs => do
    let (isNegative, cs) := readSign cs
    let (digits, rest) ← readWhole? cs
    let value ← int64? isNegative (digitsValue 10 digits)
    return (value, rest)

/-- The fraction of a number: a point and digits. -/
def readFraction? : List Char → Option (List Nat × List Char)
  | '.' :: rest => scanDigits 10 rest
  | _ => none

/-- The exponent of a number. -/
def readExponent? : List Char → Option (Int × List Char)
  | c :: rest =>
    if c = 'e' ∨ c = 'E' then
      let (isNegative, rest) := readSign rest
      (scanDigits 10 rest).map fun (digits, rest) =>
        (if isNegative then -(digitsValue 10 digits : Int) else digitsValue 10 digits, rest)
    else none
  | [] => none

/-- A number with a fraction or an exponent. A positive one has to be finite. -/
def readDecimal? (cs : List Char) : Option (Toml × List Char) := do
  let (isNegative, cs) := readSign cs
  let (whole, cs) ← readWhole? cs
  let (fraction, cs, hasFraction) := match readFraction? cs with
    | some (digits, rest) => (digits, rest, true)
    | none => ([], cs, false)
  let (exponent, cs, hasExponent) := match readExponent? cs with
    | some (e, rest) => (e, rest, true)
    | none => ((0 : Int), cs, false)
  guard (hasFraction || hasExponent)
  let mantissa := digitsValue 10 (whole ++ fraction)
  guard (isNegative || Decimal.roundsToFinite mantissa (exponent - fraction.length))
  return (.float, cs)

/-- Infinity, or not a number, with an optional sign. -/
def readSpecial? (cs : List Char) : Option (Toml × List Char) :=
  let (_, cs) := readSign cs
  match Scan.afterWord? ['i', 'n', 'f'] cs, Scan.afterWord? ['n', 'a', 'n'] cs with
  | some rest, _ => some (.float, rest)
  | none, some rest => some (.float, rest)
  | none, none => none

/-- A number of exactly `count` digits. -/
def fixedDigits? (count : Nat) (cs : List Char) : Option (Nat × List Char) :=
  let digits := cs.take count
  if digits.length = count ∧ digits.all Char.isDigit then
    some (Scan.digitsValue digits, cs.drop count)
  else none

/-- A number of two digits in a range. -/
def twoDigits? (low high : Nat) (cs : List Char) : Option (Nat × List Char) :=
  (fixedDigits? 2 cs).filter fun (n, _) => low ≤ n ∧ n ≤ high

/-- The days of a month. -/
def monthDays (year month : Nat) : Nat :=
  if month = 2 then
    if year % 4 = 0 ∧ (year % 100 ≠ 0 ∨ year % 400 = 0) then 29 else 28
  else if month = 4 ∨ month = 6 ∨ month = 9 ∨ month = 11 then 30
  else 31

/-- The characters after one that has to come first. -/
def afterChar? (c : Char) : List Char → Option (List Char)
  | [] => none
  | d :: rest => if d = c then some rest else none

/-- The characters after a date. -/
def afterDate? (cs : List Char) : Option (List Char) := do
  let (year, cs) ← fixedDigits? 4 cs
  let cs ← afterChar? '-' cs
  let (month, cs) ← twoDigits? 1 12 cs
  let cs ← afterChar? '-' cs
  let (_, cs) ← twoDigits? 1 (monthDays year month) cs
  return cs

/-- The characters after the fraction of a second, if there is one. -/
def afterSecondFraction (cs : List Char) : List Char :=
  match cs with
  | '.' :: c :: rest => if c.isDigit then rest.dropWhile Char.isDigit else cs
  | _ => cs

/-- The characters after a time of day. A minute may have a leap second. -/
def afterTime? (cs : List Char) : Option (List Char) := do
  let (_, cs) ← twoDigits? 0 23 cs
  let cs ← afterChar? ':' cs
  let (_, cs) ← twoDigits? 0 59 cs
  let cs ← afterChar? ':' cs
  let (_, cs) ← twoDigits? 0 60 cs
  return afterSecondFraction cs

/-- The characters after a time zone. -/
def afterZone? : List Char → Option (List Char)
  | [] => none
  | c :: rest =>
    if c = 'Z' ∨ c = 'z' then some rest
    else if c = '+' ∨ c = '-' then do
      let (_, cs) ← twoDigits? 0 23 rest
      let cs ← afterChar? ':' cs
      let (_, cs) ← twoDigits? 0 59 cs
      return cs
    else none

/-- The characters after the time that belongs to a date, if there is one. -/
def afterDateTime (cs : List Char) : List Char :=
  match cs with
  | c :: rest =>
    if c = 'T' ∨ c = 't' ∨ c = ' ' then
      match afterTime? rest with
      | some after => (afterZone? after).getD after
      | none => cs
    else cs
  | [] => cs

/-- A date, a time or both. -/
def readDateTime? (cs : List Char) : Option (Toml × List Char) :=
  match afterDate? cs with
  | some rest => some (.dateTime, afterDateTime rest)
  | none => (afterTime? cs).map fun rest => (.dateTime, rest)

/-- A truth value. -/
def readBoolean? (cs : List Char) : Option (Toml × List Char) :=
  match Scan.afterWord? ['t', 'r', 'u', 'e'] cs, Scan.afterWord? ['f', 'a', 'l', 's', 'e'] cs with
  | some rest, _ => some (.boolean true, rest)
  | none, some rest => some (.boolean false, rest)
  | none, none => none

/-- A value without components. -/
def readScalar? (cs : List Char) : Option (Toml × List Char) :=
  match cs with
  | [] => none
  | c :: _ =>
    if c = '"' ∨ c = '\'' then (readString? cs).map fun (text, rest) => (.string text, rest)
    else
      (readDateTime? cs).orElse fun _ => (readDecimal? cs).orElse fun _ =>
        (readSpecial? cs).orElse fun _ => (readInteger? cs).orElse fun _ => readBoolean? cs

end Toml

end TypeRecovery
