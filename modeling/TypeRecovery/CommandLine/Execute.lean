import TypeRecovery.CommandLine.Arguments
import TypeRecovery.CommandLine.FileTree
import TypeRecovery.CommandLine.Style
import TypeRecovery.Description.Json
import TypeRecovery.Recovery.ConfigFile
import TypeRecovery.Report.Basic

/-!
# What the subcommands print

Running a request is a function of its arguments and of the files it names. It gives the text for
both output channels and tells how the program ends.
-/

namespace TypeRecovery

namespace CommandLine

/-- Why a document could not be used. -/
inductive Cause where
  /-- The file cannot be read. -/
  | unreadable (error : ReadError)
  /-- The text is no document of the expected form. -/
  | malformed
  deriving DecidableEq, Repr

/-- Why a subcommand failed. -/
inductive Failure where
  /-- There is no configuration in the file. -/
  | config (path : String) (cause : Cause)
  /-- There is no description of a graph in the file. -/
  | graph (path : String) (cause : Cause)
  /-- The description does not give a graph. -/
  | invalid (path : String) (error : GraphError)
  /-- Some values have inconsistent types. -/
  | inconsistent (violations checked : Nat)
  deriving DecidableEq, Repr

/-- The sentence that reports a failure. -/
def Failure.summary : Failure → String
  | config path _ => "failed to read config " ++ path
  | graph path _ => "failed to read graph " ++ path
  | invalid path _ => "invalid graph " ++ path
  | inconsistent violations checked =>
    toString violations ++ " of " ++ toString checked ++ " values failed the type check"

/-- The reason behind a cause. -/
def Cause.message : Cause → String
  | unreadable error => error.message
  | malformed => "malformed document"

/-- The reason behind a failure, if there is one. -/
def Failure.reason? : Failure → Option String
  | config _ cause => some cause.message
  | graph _ cause => some cause.message
  | invalid _ error => some error.message
  | inconsistent _ _ => none

/-- Whether a failure comes from a text that is no document. -/
def Failure.isMalformed : Failure → Bool
  | config _ cause => cause = .malformed
  | graph _ cause => cause = .malformed
  | _ => false

/-- The lines of a text, each set in by four blanks. -/
def indent (text : String) : String := "    " ++ "\n    ".intercalate (text.splitOn "\n")

/-- The text that reports a failure and its reason. -/
def Failure.message (f : Failure) : String :=
  match f.reason? with
  | none => "Error: " ++ f.summary ++ "\n"
  | some reason => "Error: " ++ f.summary ++ "\n\nCaused by:\n" ++ indent reason ++ "\n"

/-- What a subcommand printed, and whether it failed after that. -/
structure Transcript where
  /-- Text for the standard output. -/
  output : String := ""
  /-- Text for the error output. -/
  errors : String := ""
  /-- Why the subcommand failed, if it did. -/
  failure : Option Failure := none
  deriving DecidableEq, Repr

/-- The function and configuration an invocation works on. -/
structure Input where
  /-- The function. -/
  function : NamedRoutine
  /-- The configuration. -/
  config : Config

/-- Read a document. -/
def readDocument {α : Type} (files : Files) (parse? : String → Option α) (path : String) :
    Except Cause α :=
  match files path with
  | .error error => .error (.unreadable error)
  | .ok text => (parse? text).elim (.error .malformed) .ok

/-- The configuration of an invocation. -/
def loadConfig (files : Files) (o : Options) : Except Failure Config := do
  let config ← match o.config with
    | none => pure {}
    | some path => (readDocument files Config.parse? path).mapError (.config path)
  return { config with maxRounds := o.maxRounds.getD config.maxRounds }

/-- The input of an invocation. The configuration is read first. -/
def load (files : Files) (i : Invocation) : Except Failure Input := do
  let config ← loadConfig files i.options
  let description ← (readDocument files Description.parse? i.graph).mapError (.graph i.graph)
  let function ← description.build.mapError (.invalid i.graph)
  return { function, config }

/-- The results of rounds until one changes nothing or the limit, if there is one, is reached. At
least one round is called for. -/
def Input.rounds (i : Input) (limit : Option UInt32) : List RoundResult :=
  match limit with
  | none => i.function.routine.settle i.config
  | some limit => i.function.routine.settleWithin i.config (max limit.toNat 1)

/-- The function after some rounds. -/
def Input.after (i : Input) (results : List RoundResult) : NamedRoutine :=
  (results.getLast?.map (·.routine)).elim i.function fun r => i.function.modify fun _ => r

/-- The report on the function after some rounds. -/
def Input.report (i : Input) (results : List RoundResult) (namedOnly : Bool) : Report :=
  (i.after results).report (results.getLast?.map (·.outcome)) namedOnly

/-- The words for the phase a function ended in. -/
def statusText (colored : Bool) : Phase → String
  | .converged => Style.green.apply colored "converged"
  | .capped => Style.red.apply colored "capped"
  | .running => Style.yellow.apply colored "still changing"
  | .idle => Style.yellow.apply colored "not started"

/-- The number of columns of the names in a table. -/
def nameWidth (values : List ValueReport) : Nat :=
  (values.map (·.name.utf8ByteSize)).foldl max 0

/-- A text followed by blanks up to a number of characters. -/
def padRight (width : Nat) (text : String) : String :=
  text ++ String.ofList (List.replicate (width - text.length) ' ')

/-- The line of a table for one value. -/
def valueLine (colored : Bool) (width : Nat) (v : ValueReport) : String :=
  let style := if v.metatype = .unknown then Style.dimmed else Style.green
  "  " ++ padRight width v.name ++ "  " ++ v.space ++ ":" ++ hexText v.offset.toNat ++ ":"
    ++ toString v.size ++ "  " ++ style.apply colored v.type
    ++ (if v.locked then " (locked)" else "") ++ "\n"

/-- The head and lines of a table of recovered types. -/
def table (colored : Bool) (r : Report) : String :=
  Style.bold.apply colored "function" ++ " " ++ Style.bold.apply colored r.name ++ ": "
    ++ statusText colored r.progress.phase ++ " after " ++ toString r.progress.rounds
    ++ " round(s)\n" ++ String.join (r.values.map (valueLine colored (nameWidth r.values)))

/-- The warnings of a function, one on a line. -/
def warningLines (colored : Bool) (warnings : List String) : String :=
  String.join (warnings.map fun text => Style.boldYellow.apply colored "warning:" ++ " " ++ text
    ++ "\n")

/-- The recovered types as a record. -/
def summary (results : List RoundResult) (r : Report) : Json :=
  .record
    [("function", .str r.name), ("outcomes", .list (fun result => result.outcome.toJson) results),
      ("rounds", .nat r.progress.rounds), ("phase", .str r.progress.phase.name),
      ("warnings", .list .str r.warnings), ("values", .list ValueReport.toJson r.values)]

/-- Print the recovered types. -/
def infer (colored : Bool) (o : Options) (i : Input) : Transcript :=
  let results := i.rounds o.rounds
  let report := i.report results false
  if o.json then { output := (summary results report).pretty ++ "\n" }
  else { output := table colored report, errors := warningLines colored report.warnings }

/-- Print a report. -/
def report (o : Options) (i : Input) : Transcript :=
  { output := (i.report (i.rounds none) o.namedOnly).toJson.pretty ++ "\n" }

/-- Check the recovered types. Types that were fixed in the description have to stay. -/
def check (colored : Bool) (i : Input) : Transcript :=
  let result := (i.after (i.rounds none)).routine.verify i.function.routine.lockedTypes
  let lines := result.violations.map fun v =>
    Style.boldRed.apply colored "violation:" ++ " " ++ v.toJson.render ++ "\n"
  if result.violations.isEmpty then
    { output := Style.boldGreen.apply colored "ok" ++ " " ++ toString result.checked
        ++ " values checked\n" }
  else
    { errors := String.join lines
      failure := some (.inconsistent result.violations.length result.checked) }

/-- Run a subcommand. -/
def Invocation.execute (files : Files) (colored : Bool) (i : Invocation) : Transcript :=
  match load files i with
  | .error failure => { failure := some failure }
  | .ok input =>
    match i.subcommand with
    | .infer => infer colored i.options input
    | .report => report i.options input
    | .check => check colored input

/-- The name and number of the version. -/
def versionText : String := "typeflow 0.4.0\n"

/-- How to use the program. -/
def usageText : String :=
  "Recover data-types over p-code function graphs\n\n"
    ++ "Usage: typeflow [-v] <infer|report|check> <GRAPH> [--config <FILE>] [--max-rounds <N>]\n"
    ++ "       infer also takes [--rounds <N>] and [--json], report takes [--named-only]\n"

/-- Answer a request. -/
def Request.execute (files : Files) (colored : Bool) : Request → Transcript
  | version => { output := versionText }
  | help => { output := usageText }
  | run invocation => invocation.execute files colored

end CommandLine

end TypeRecovery
