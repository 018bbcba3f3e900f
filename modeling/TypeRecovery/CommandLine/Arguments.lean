import TypeRecovery.Scan

/-!
# Arguments of the command line

An invocation names a subcommand and the file of a function graph, with options before or after
the file. Everything after a bare `--` is taken for a file. Arguments are read from left to right,
so a request for help or for the version wins over any mistake after it.
-/

namespace TypeRecovery

namespace CommandLine

/-- The subcommands. -/
inductive Subcommand where
  /-- Print the recovered types. -/
  | infer
  /-- Print a report. -/
  | report
  /-- Check the recovered types. -/
  | check
  deriving DecidableEq, Repr

/-- The word for a subcommand. -/
def Subcommand.name : Subcommand → String
  | infer => "infer"
  | report => "report"
  | check => "check"

/-- The subcommand that a word names. -/
def Subcommand.ofName? (name : String) : Option Subcommand :=
  [infer, report, check].find? (·.name = name)

/-- What the arguments of a subcommand say. -/
structure Options where
  /-- The file of the function graph. -/
  graph : Option String := none
  /-- The configuration file. -/
  config : Option String := none
  /-- A limit on rounds that replaces the configured one. -/
  maxRounds : Option UInt32 := none
  /-- The number of rounds after which to stop. -/
  rounds : Option UInt32 := none
  /-- Whether to print a document instead of a table. -/
  json : Bool := false
  /-- Whether to list only values with names. -/
  namedOnly : Bool := false
  deriving DecidableEq, Repr

/-- A subcommand with all it needs. -/
structure Invocation where
  /-- The subcommand. -/
  subcommand : Subcommand
  /-- The file of the function graph. -/
  graph : String
  /-- The options. -/
  options : Options
  deriving DecidableEq, Repr

/-- What the arguments ask for. -/
inductive Request where
  /-- The name and number of the program's version. -/
  | version
  /-- How to use the program. -/
  | help
  /-- A subcommand. -/
  | run (invocation : Invocation)
  deriving DecidableEq, Repr

/-- The sign and magnitude of a decimal number with an optional sign. -/
def signedDigits? : List Char → Option (Bool × Nat)
  | '+' :: cs => (Scan.digits? cs).map fun n => (false, n)
  | '-' :: cs => (Scan.digits? cs).map fun n => (true, n)
  | cs => (Scan.digits? cs).map fun n => (false, n)

/-- A number of at most 32 bits. -/
def uint32? (text : String) : Option UInt32 :=
  (signedDigits? text.toList).bind fun (isNegative, n) =>
    if (isNegative && n ≠ 0) || UInt32.size ≤ n then none else some (UInt32.ofNat n)

/-- The path of a file, which is not empty. -/
def path? (text : String) : Option String := if text.isEmpty then none else some text

/-- Set an option that was not set before. -/
def setOnce? {α : Type} (old : Option α) (new : Option α) : Option (Option α) :=
  match old with
  | none => new.map some
  | some _ => none

/-- Whether a subcommand has an option with a value of this name. -/
def takesValue (c : Subcommand) (name : String) : Bool :=
  name = "config" || name = "max-rounds" || (name = "rounds" && c = .infer)

/-- Give a value to an option that takes one. -/
def setValue? (name value : String) (o : Options) : Option Options :=
  if name = "config" then
    (setOnce? o.config (path? value)).map fun config => { o with config }
  else if name = "max-rounds" then
    (setOnce? o.maxRounds (uint32? value)).map fun maxRounds => { o with maxRounds }
  else
    (setOnce? o.rounds (uint32? value)).map fun rounds => { o with rounds }

/-- Set an option without a value. Asking for more messages may be repeated. -/
def setFlag? (c : Subcommand) (name : String) (o : Options) : Option Options :=
  if name = "verbose" then some o
  else if name = "json" && c = .infer && !o.json then some { o with json := true }
  else if name = "named-only" && c = .report && !o.namedOnly then some { o with namedOnly := true }
  else none

/-- Take an argument for the file of the function graph. -/
def setGraph? (text : String) (o : Options) : Option Options :=
  (setOnce? o.graph (path? text)).map fun graph => { o with graph }

/-- What a cluster of one-letter options amounts to. -/
inductive Cluster where
  /-- Nothing that changes the request. -/
  | plain
  /-- A request of its own. -/
  | asks (request : Request)

/-- Read a cluster of one-letter options, of which `V` is known only before the subcommand. -/
def readCluster? (isTop : Bool) : List Char → Option Cluster
  | [] => some .plain
  | 'v' :: rest => readCluster? isTop rest
  | 'h' :: _ => some (.asks .help)
  | 'V' :: _ => if isTop then some (.asks .version) else none
  | _ => none

/-- The forms of an argument. -/
inductive Argument where
  /-- The end of the options. -/
  | endOfOptions
  /-- A named option. -/
  | long (name : String)
  /-- A named option with a value. -/
  | assigned (name value : String)
  /-- One-letter options. -/
  | short (letters : List Char)
  /-- Anything else. -/
  | operand

/-- The form of an argument. A lone dash is no option. -/
def Argument.of (text : String) : Argument :=
  match text.toList with
  | ['-', '-'] => endOfOptions
  | '-' :: '-' :: rest =>
    match rest.span (· ≠ '=') with
    | (name, []) => long (String.ofList name)
    | (name, _ :: value) => assigned (String.ofList name) (String.ofList value)
  | '-' :: c :: rest => short (c :: rest)
  | _ => operand

/-- Whether an argument can be the value of the option before it. -/
def isValue (text : String) : Bool :=
  match Argument.of text with
  | .operand => true
  | _ => false

/-- The request of a subcommand whose arguments have all been read. -/
def complete? (c : Subcommand) (o : Options) : Option Request :=
  o.graph.map fun graph => .run ⟨c, graph, o⟩

/-- Read the arguments of a subcommand after the end of its options. -/
def readOperands? (c : Subcommand) (o : Options) (args : List String) : Option Request :=
  (args.foldlM (fun o text => setGraph? text o) o).bind (complete? c)

/-- Read the arguments of a subcommand. -/
def readOptions? (c : Subcommand) : Options → List String → Option Request
  | o, [] => complete? c o
  | o, text :: rest =>
    match Argument.of text with
    | .endOfOptions => readOperands? c o rest
    | .assigned name value =>
      if takesValue c name then
        match setValue? name value o with
        | some o => readOptions? c o rest
        | none => none
      else none
    | .long name =>
      if name = "help" then some .help
      else if takesValue c name then
        match rest with
        | [] => none
        | value :: rest =>
          if isValue value then
            match setValue? name value o with
            | some o => readOptions? c o rest
            | none => none
          else none
      else
        match setFlag? c name o with
        | some o => readOptions? c o rest
        | none => none
    | .short letters =>
      match readCluster? false letters with
      | some .plain => readOptions? c o rest
      | some (.asks request) => some request
      | none => none
    | .operand =>
      match setGraph? text o with
      | some o => readOptions? c o rest
      | none => none

/-- A request for help, about a subcommand if one is named. -/
def readHelp? : List String → Option Request
  | [] => some .help
  | [name] => if name = "help" || (Subcommand.ofName? name).isSome then some .help else none
  | _ => none

/-- Read all arguments; nothing if they are no proper use of the program. -/
def read? : List String → Option Request
  | [] => none
  | text :: rest =>
    match Argument.of text with
    | .endOfOptions => none
    | .assigned _ _ => none
    | .long name =>
      if name = "help" then some .help
      else if name = "version" then some .version
      else if name = "verbose" then read? rest
      else none
    | .short letters =>
      match readCluster? true letters with
      | some .plain => read? rest
      | some (.asks request) => some request
      | none => none
    | .operand =>
      if text = "help" then readHelp? rest
      else (Subcommand.ofName? text).bind fun c => readOptions? c {} rest

end CommandLine

end TypeRecovery
