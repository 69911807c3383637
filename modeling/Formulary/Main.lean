import Formulary.CommandLine

/-!
The program: arguments, environment, files and standard input as they are on this machine.
-/
namespace Formulary.CommandLine

def variableNames : List String := ["TEXCALC_DEBUG", "TEXCALC_CACHE_GRAMMAR", "TEXCALC_LOG_LEVEL"]

def readEnvironment : IO Environment := do
  let values ← variableNames.mapM fun name => do return (name, ← IO.getEnv name)
  return fun name => (values.lookup name).join

def faultOf : IO.Error → ReadFault
  | .noFileOrDirectory _ _ _ => .missing
  | .inappropriateType _ _ _ => .isDirectory
  | e => .other 5 (toString e)

def readFile (path : String) : IO (Except ReadFault (List Nat)) := do
  try
    let bytes ← IO.FS.readBinFile path
    return .ok (bytes.toList.map (·.toNat))
  catch e => return .error (faultOf e)

def conclude (outcome : Outcome) : IO UInt32 := do
  match outcome with
  | .exited status output errors =>
    (← IO.getStderr).putStr errors
    (← IO.getStdout).putStr output
    return status.toUInt32
  | .aborted cause =>
    (← IO.getStderr).putStrLn cause.message
    return 1

/-- Answers the lines of standard input as they come. -/
partial def converse (setup : Setup) (built : Bool) : IO Unit := do
  let output ← IO.getStdout
  output.putStr Session.promptText
  output.flush
  let line ← (← IO.getStdin).getLine
  if line.isEmpty then return
  match Session.request line with
  | .leave => return
  | .nothing => converse setup built
  | .statement _ =>
    for reply in Session.replies setup.settings setup.tree built [line] do
      (← IO.getStderr).putStr (writeLog setup.threshold reply.log ++ reply.errors)
      output.putStr reply.output
    converse setup true

end Formulary.CommandLine

open Formulary CommandLine in
def main (argv : List String) : IO UInt32 := do
  match Options.ofArguments argv with
  | .error refusal => conclude (refuse refusal)
  | .ok options =>
    match Setup.make (← readEnvironment) options with
    | .error fault => conclude (.aborted (.threshold fault))
    | .ok setup =>
      match options.source with
      | .text s => conclude (runText setup s.toList)
      | .noText => conclude (.aborted .noText)
      | .file path => conclude (runFile setup path (← readFile path))
      | .session =>
        (← IO.getStdout).putStr Session.banner
        converse setup false
        return 0
