import TypeRecovery.CommandLine.Execute

/-!
# The command line program

Reads the files that the arguments name, and prints what the request gives.
-/

namespace TypeRecovery

namespace CommandLine

/-- The files that a request reads. -/
def requestedFiles : Request → List String
  | .run invocation => invocation.options.config.toList ++ [invocation.graph]
  | _ => []

/-- The number of a system error, which may be given with its sign changed. -/
def errorNumber (code : UInt32) : Nat := min code.toNat (-code).toNat

/-- The reason behind a failed attempt to read a file. -/
def ReadError.ofIOError (error : IO.Error) : ReadError :=
  match error with
  | .noFileOrDirectory _ _ _ => .missing
  | .inappropriateType _ code _ => if errorNumber code = 20 then .notDirectory else .isDirectory
  | .invalidArgument _ code _ =>
    if errorNumber code = 36 then .nameTooLong else .other (toString error)
  | _ => .other (toString error)

/-- The contents of a file, or the reason why it cannot be read. -/
def readContents (path : String) : IO (Except ReadError String) := do
  try
    return (String.fromUTF8? (← IO.FS.readBinFile path)).elim (.error .notText) .ok
  catch error => return .error (.ofIOError error)

/-- Whether output is styled: on request, or on a terminal unless styles are refused. -/
def wantsStyles : IO Bool := do
  if (← IO.getEnv "CLICOLOR_FORCE").any (· ≠ "0") then return true
  if (← IO.getEnv "NO_COLOR").isSome then return false
  (← IO.getStdout).isTty

/-- Answer the arguments. Failures end with status 1, wrong usage with status 2. -/
def answer (args : List String) : IO UInt32 := do
  match read? args with
  | none =>
    IO.eprint usageText
    return 2
  | some request =>
    let contents ← (requestedFiles request).mapM fun path =>
      return (path, ← readContents path)
    let files : Files := fun path => (contents.lookup path).getD (.error .missing)
    let transcript := request.execute files (← wantsStyles)
    IO.print transcript.output
    IO.eprint transcript.errors
    match transcript.failure with
    | none => return 0
    | some failure =>
      IO.eprint failure.message
      return 1

end CommandLine

end TypeRecovery

/-- Run the program. -/
def main (args : List String) : IO UInt32 := TypeRecovery.CommandLine.answer args
