import Formulary.CommandLine.Arguments
import Formulary.CommandLine.Folder
import Formulary.Session
import Formulary.Text.Octets

/-!
The command line as a function of its arguments, the environment, the files and the lines on standard
input. A sheet is shown only if all of it can be read.
-/
namespace Formulary

/-- What cuts a run short without a report. -/
inductive Abort where
  | malformed (m : Malformed)
  | nulInName
  | noText
  | threshold (fault : ThresholdFault)
deriving DecidableEq, Repr

def Abort.message : Abort → String
  | .malformed m => m.message
  | .nulInName => "embedded null byte"
  | .noText => "expected string or bytes-like object, got 'list'"
  | .threshold fault => fault.message

inductive Outcome where
  | exited (status : Nat) (output errors : String)
  | aborted (a : Abort)
deriving DecidableEq, Repr

namespace CommandLine

def usage : String :=
  "usage: texcalc.py [-h] [-e EXPRESSION] [--tree] [--verbose] [script]\n"

def help : String :=
  usage ++ "\nParse texcalc notation into an AST\n\npositional arguments:\n" ++
    "  script                Path to a source file\n\noptions:\n" ++
    "  -h, --help            show this help message and exit\n" ++
    "  -e EXPRESSION, --expression EXPRESSION\n" ++
    "                        Parse the given text instead of a file\n" ++
    "  --tree                Print an indented tree instead of repr()\n" ++
    "  --verbose             Log parser activity at DEBUG level\n"

def refuse : Refusal → Outcome
  | .help => .exited 0 help ""
  | .usage fault => .exited 2 "" (usage ++ "texcalc.py: error: " ++ fault.message ++ "\n")

/-- How a run shows trees and what it logs. -/
structure Setup where
  settings : Settings
  threshold : Nat
  tree : Bool

/-- The environment names the threshold; else it is low if much is to be logged. -/
def Setup.make (env : Environment) (options : Options) : Except ThresholdFault Setup :=
  (thresholdNamed
    ((env "TEXCALC_LOG_LEVEL").getD (if options.verbose then "DEBUG" else "WARNING"))).map
    fun threshold => ⟨.ofEnvironment env, threshold, options.tree⟩

def sheetParsed (count : Nat) : Record := ⟨.info, "texcalc", Record.parsedText count⟩

/-- Reads a sheet and shows its statements in order, or the fault. -/
def runText (setup : Setup) (text : List Char) : Outcome :=
  let result := parseSheet text
  let log := sheetPrelude text ++ [.building setup.settings, sheetOutcome text result]
  match result with
  | .ok sheet =>
    .exited 0 (String.join (sheet.map fun s => showNode setup.tree s.toNode ++ "\n"))
      (writeLog setup.threshold (log ++ [sheetParsed sheet.length]))
  | .error r =>
    .exited 1 "" (writeLog setup.threshold log ++ showReport (r.report text) text)

/-- Reads a sheet from a file, given what became of reading the file. -/
def runFile (setup : Setup) (path : String) (content : Except ReadFault (List Nat)) : Outcome :=
  match content with
  | .error .nulInName => .aborted .nulInName
  | .error fault =>
    .exited 1 "" ("Cannot read " ++ path ++ ": " ++ fault.message path ++ "\n")
  | .ok octets =>
    match decodeUtf8 octets with
    | .error m => .aborted (.malformed m)
    | .ok text => runText setup (unifyLines text)

def runSession (setup : Setup) (lines : List String) : Outcome :=
  let replies := Session.transcript setup.settings setup.tree lines
  .exited 0 (String.join (replies.map (·.output)))
    (String.join (replies.map fun r => writeLog setup.threshold r.log ++ r.errors))

def run (env : Environment) (read : String → Except ReadFault (List Nat)) (argv lines : List String) :
    Outcome :=
  match Options.ofArguments argv with
  | .error refusal => refuse refusal
  | .ok options =>
    match Setup.make env options with
    | .error fault => .aborted (.threshold fault)
    | .ok setup =>
      match options.source with
      | .text s => runText setup s.toList
      | .noText => .aborted .noText
      | .file path => runFile setup path (read path)
      | .session => runSession setup lines

end CommandLine
end Formulary
