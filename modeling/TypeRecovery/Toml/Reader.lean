import TypeRecovery.Toml.Scalar

/-!
# Reading configuration documents

A document is a sequence of lines, each of which is blank, opens a table or sets a key. Repeating
a key or opening a table twice is an error.
-/

namespace TypeRecovery

namespace Toml

/-- The characters of keys without quotation marks. -/
def isBareKeyChar (c : Char) : Bool := c.isAlphanum || c = '_' || c = '-'

/-- One part of a key. -/
def readSimpleKey? (cs : List Char) : Option (String × List Char) :=
  match cs with
  | '"' :: _ => readLineString? cs
  | '\'' :: _ => readLineString? cs
  | _ =>
    match cs.span isBareKeyChar with
    | ([], _) => none
    | (key, rest) => some (String.ofList key, rest)

/-- The parts of a key, at most `fuel` of them, with the blanks around them. -/
def readKeyParts? : (fuel : Nat) → List Char → Option (List String × List Char)
  | 0, _ => none
  | fuel + 1, cs =>
    match readSimpleKey? (skipBlanks cs) with
    | none => none
    | some (part, rest) =>
      match skipBlanks rest with
      | '.' :: rest => (readKeyParts? fuel rest).map fun (parts, rest) => (part :: parts, rest)
      | rest => some ([part], rest)

/-- The bound on the number of parts of a key and on the nesting of values. -/
def nestingLimit : Nat := 79

/-- A key: the path to its table and its name there. -/
def readKey? (cs : List Char) : Option ((List String × String) × List Char) :=
  match readKeyParts? nestingLimit cs with
  | none => none
  | some (parts, rest) => parts.getLast?.map fun name => ((parts.dropLast, name), rest)

/-- The characters after blanks, line ends and comments. -/
def skipTrivia : (inComment : Bool) → List Char → List Char
  | _, [] => []
  | _, '\r' :: '\n' :: rest => skipTrivia false rest
  | false, c :: rest =>
    if isBlank c ∨ c = '\n' then skipTrivia false rest
    else if c = '#' then skipTrivia true rest
    else c :: rest
  | true, c :: rest =>
    if c = '\n' then skipTrivia false rest
    else if isTextChar c then skipTrivia true rest
    else c :: rest

/-- The items of an array after its opening bracket, at most `fuel` of them. -/
def readItems? (value : List Char → Option (Toml × List Char)) :
    (fuel : Nat) → List Char → Option (List Toml × List Char)
  | 0, _ => none
  | fuel + 1, cs =>
    match skipTrivia false cs with
    | ']' :: rest => some ([], rest)
    | cs =>
      match value cs with
      | none => none
      | some (item, rest) =>
        match skipTrivia false rest with
        | ',' :: rest => (readItems? value fuel rest).map fun (items, rest) => (item :: items, rest)
        | ']' :: rest => some ([item], rest)
        | _ => none

/-- A key and its value. -/
def readKeyValue? (value : List Char → Option (Toml × List Char)) (cs : List Char) :
    Option ((List String × String) × Toml × List Char) :=
  match readKey? cs with
  | some (key, '=' :: rest) => (value (skipBlanks rest)).map fun (v, rest) => (key, v, rest)
  | _ => none

/-- The keys of a table in braces, added to those before, at most `fuel` of them. -/
def readMembers? (value : List Char → Option (Toml × List Char)) :
    (fuel : Nat) → Entries → List Char → Option (Entries × List Char)
  | 0, _, _ => none
  | fuel + 1, entries, cs =>
    match readKeyValue? value cs with
    | none => none
    | some ((path, key), v, rest) =>
      match addDotted path key v entries with
      | none => none
      | some entries =>
        match skipBlanks rest with
        | ',' :: rest => readMembers? value fuel entries rest
        | '\x7d' :: rest => some (entries, rest)
        | _ => none

/-- A value, nested at most `depth` deep and with lists no longer than `width`. -/
def readValue? (width : Nat) : (depth : Nat) → List Char → Option (Toml × List Char)
  | 0, cs => if cs.head? = some '[' ∨ cs.head? = some '\x7b' then none else readScalar? cs
  | depth + 1, cs =>
    match cs with
    | '[' :: rest =>
      (readItems? (readValue? width depth) width rest).map fun (items, rest) =>
        (.array items, rest)
    | '\x7b' :: rest =>
      match skipBlanks rest with
      | '\x7d' :: rest => some (.table .literal [], rest)
      | rest =>
        (readMembers? (readValue? width depth) width [] rest).map fun (entries, rest) =>
          (.table .literal entries, rest)
    | cs => readScalar? cs

/-- The characters after a comment. -/
def skipComment : List Char → List Char
  | '#' :: rest => rest.dropWhile isTextChar
  | cs => cs

/-- The characters after the end of a line, before which blanks and a comment may stand. -/
def afterLine? (cs : List Char) : Option (List Char) :=
  match skipComment (skipBlanks cs) with
  | [] => some []
  | '\n' :: rest => some rest
  | '\r' :: '\n' :: rest => some rest
  | _ => none

/-- What has been read of a document. -/
structure State where
  /-- The root table. -/
  root : Entries
  /-- The path of the table that keys go to. -/
  current : List String

/-- Open the table of a header after its brackets. -/
def openHeader? (isElement : Bool) (s : State) (cs : List Char) : Option (State × List Char) :=
  match readKey? cs with
  | none => none
  | some ((path, key), rest) => do
    let rest ← Scan.afterWord? (if isElement then [']', ']'] else [']']) rest
    let rest ← afterLine? rest
    let root ← atPath false
      (fun _ entries => if isElement then openElement key entries else openTable key entries)
      false path s.root
    return (⟨root, path ++ [key]⟩, rest)

/-- Set a key of the current table. -/
def setKey? (width : Nat) (s : State) (cs : List Char) : Option (State × List Char) :=
  match readKeyValue? (readValue? width nestingLimit) cs with
  | none => none
  | some ((path, key), v, rest) => do
    let rest ← afterLine? rest
    let root ← atPath false (fun _ entries => addDotted path key v entries) false s.current s.root
    return ({ s with root }, rest)

/-- Read one line. -/
def readLine? (width : Nat) (s : State) (cs : List Char) : Option (State × List Char) :=
  match skipBlanks cs with
  | '[' :: '[' :: rest => openHeader? true s rest
  | '[' :: rest => openHeader? false s rest
  | cs =>
    match afterLine? cs with
    | some rest => some (s, rest)
    | none => setKey? width s cs

/-- Read lines until none are left, at most `fuel` of them. -/
def readLines? (width : Nat) : (fuel : Nat) → State → List Char → Option State
  | 0, s, cs => if cs.isEmpty then some s else none
  | fuel + 1, s, cs =>
    if cs.isEmpty then some s
    else
      match readLine? width s cs with
      | none => none
      | some (s, rest) => readLines? width fuel s rest

/-- The characters without a byte order mark at their start. -/
def dropByteOrderMark : List Char → List Char
  | c :: rest => if c.toNat = 0xFEFF then rest else c :: rest
  | [] => []

/-- The root table of a document. -/
def parse? (text : String) : Option Entries :=
  let cs := dropByteOrderMark text.toList
  (readLines? (cs.length + 1) (cs.length + 1) ⟨[], []⟩ cs).map (·.root)

end Toml

end TypeRecovery
