import Formulary.Number.Digit
import Formulary.Text.Quoted

/-!
Arguments of the command line. Each argument is first read on its own, as an option, a plain argument or
the separator behind which all are plain; then they are taken in order. Long options may be cut short as
long as only one begins so.
-/
namespace Formulary

inductive Flag where
  | help | expression | tree | verbose
deriving DecidableEq, Repr

/-- The options by their names, in the order of the usage text. -/
def flagNames : List (String × Flag) :=
  [("-h", .help), ("--help", .help), ("-e", .expression), ("--expression", .expression),
    ("--tree", .tree), ("--verbose", .verbose)]

def Flag.text (f : Flag) : String :=
  "/".intercalate ((flagNames.filter (·.2 = f)).map (·.1))

inductive UsageFault where
  | ambiguous (argument : String) (options : List String)
  | missingValue (flag : Flag)
  | ignoredValue (flag : Flag) (value : String)
  | unrecognized (arguments : List String)
deriving DecidableEq, Repr

def UsageFault.message : UsageFault → String
  | .ambiguous argument options =>
    "ambiguous option: " ++ argument ++ " could match " ++ ", ".intercalate options
  | .missingValue flag => "argument " ++ flag.text ++ ": expected one argument"
  | .ignoredValue flag value =>
    "argument " ++ flag.text ++ ": ignored explicit argument " ++ quoted value
  | .unrecognized arguments => "unrecognized arguments: " ++ " ".intercalate arguments

/-- An argument read on its own. An option may have its value with it, behind an equals sign or, if the
name is short, right behind the name. -/
inductive Argument where
  | plain (text : String)
  | separator
  | option (flag : Flag) (short : Bool) (value : Option (List Char))
  | unknown (text : String)
deriving DecidableEq, Repr

/-- The text before the first equals sign, and the text behind it if there is one. -/
def splitEquals (cs : List Char) : List Char × Option (List Char) :=
  match cs.dropWhile (· ≠ '=') with
  | [] => (cs, none)
  | _ :: value => (cs.takeWhile (· ≠ '='), some value)

/-- A minus sign and a number; a newline behind it does not count. -/
def looksNegative (cs : List Char) : Bool :=
  match cs with
  | '-' :: number =>
    let number := if number.getLast? = some '\n' then number.dropLast else number
    let rest := number.dropWhile isDigit
    match rest with
    | [] => !number.isEmpty
    | '.' :: fraction => !fraction.isEmpty && fraction.all isDigit
    | _ => false
  | _ => false

namespace Argument

/-- The long options that begin with a text. -/
def completions (start : List Char) : List (String × Flag) :=
  flagNames.filter fun entry => start.isPrefixOf entry.1.toList

/-- An argument that begins with a minus sign and is no option: it may still be a plain one. -/
def unlisted (text : String) : Argument :=
  if looksNegative text.toList || text.toList.contains ' ' then .plain text else .unknown text

/-- An argument that begins with two minus signs. -/
def long (text : String) : Except UsageFault Argument :=
  let (start, value) := splitEquals text.toList
  match completions start with
  | [] => .ok (unlisted text)
  | [(_, flag)] => .ok (.option flag false value)
  | several => .error (.ambiguous text (several.map (·.1)))

/-- An argument of one minus sign and a letter, with what is written behind the letter. -/
def short (text : String) (rest : List Char) : Argument :=
  match flagNames.lookup (String.ofList (text.toList.take 2)) with
  | some flag => .option flag true (some rest)
  | none => unlisted text

/-- Full names, also before an equals sign, come before names cut short. -/
def ofText (text : String) : Except UsageFault Argument :=
  let (name, value) := splitEquals text.toList
  match text.toList, flagNames.lookup (String.ofList name) with
  | '-' :: c :: _, some flag => .ok (.option flag (c ≠ '-') value)
  | '-' :: '-' :: _, none => long text
  | '-' :: _ :: rest, none => .ok (short text rest)
  | _, _ => .ok (.plain text)

/-- All arguments; the first separator makes the arguments behind it plain. -/
def ofTexts : List String → Except UsageFault (List Argument)
  | [] => .ok []
  | text :: texts =>
    if text = "--" then .ok (.separator :: texts.map .plain)
    else
      match ofText text with
      | .error fault => .error fault
      | .ok argument => (ofTexts texts).map (argument :: ·)

end Argument

/-- How far a script name has been found. -/
inductive Script where
  | pending
  /-- The last argument is the script name. -/
  | last (name : String)
  | earlier (name : String)
deriving DecidableEq, Repr

def Script.name? : Script → Option String
  | .pending => none
  | .last name | .earlier name => some name

/-- What a run reads. -/
inductive Source where
  | text (s : String)
  /-- The expression option is given, but no text with it. -/
  | noText
  | file (path : String)
  | session
deriving DecidableEq, Repr

/-- What the arguments ask for. -/
structure Options where
  source : Source
  tree : Bool
  verbose : Bool
deriving DecidableEq, Repr

/-- Why the arguments start nothing. -/
inductive Refusal where
  | help
  | usage (fault : UsageFault)
deriving DecidableEq, Repr

structure Progress where
  script : Script
  /-- Set by the expression option, whose value may be no text. -/
  expression : Option (Option String)
  tree : Bool
  verbose : Bool
  /-- Arguments that nothing takes, the latest first. -/
  extras : List String
deriving DecidableEq, Repr

namespace Progress

def start : Progress := ⟨.pending, none, false, false, []⟩

/-- Once an argument is taken, an earlier script name is no longer the last argument. -/
def pass (p : Progress) : Progress :=
  match p.script with
  | .last name => { p with script := .earlier name }
  | _ => p

def reject (p : Progress) (text : String) : Progress :=
  { p.pass with extras := text :: p.extras }

def takePlain (p : Progress) (text : String) : Progress :=
  match p.script with
  | .pending => { p with script := .last text }
  | _ => p.reject text

/-- The separator belongs to the script name before or behind it. -/
def takeSeparator (p : Progress) : Progress :=
  match p.script with
  | .pending => p
  | .last _ => p.pass
  | .earlier _ => p.reject "--"

/-- The value of the expression option that is written with it. Two minus signs alone are no text. -/
def attachedText (value : List Char) : Option String :=
  if value = ['-', '-'] then none else some (String.ofList value)

/-- What stands behind the short help option is a row of short options. Help is given once they are found
to be in order; the expression option takes what is left of the row, or else the next argument. -/
def helpCluster (nextPlain : Bool) : List Char → Refusal
  | ['h'] => .help
  | 'h' :: c :: cs => helpCluster nextPlain (c :: cs)
  | ['e'] => if nextPlain then .help else .usage (.missingValue .expression)
  | 'e' :: _ => .help
  | cs => .usage (.ignoredValue .help (String.ofList cs))

/-- A text on the command line comes before a file; an empty file name is none. -/
def source (p : Progress) : Source :=
  match p.expression, p.script.name? with
  | some (some text), _ => .text text
  | some none, _ => .noText
  | none, some path => if path.isEmpty then .session else .file path
  | none, none => .session

def finish (p : Progress) : Except Refusal Options :=
  if p.extras.isEmpty then .ok ⟨p.source, p.tree, p.verbose⟩
  else .error (.usage (.unrecognized p.extras.reverse))

/-- Takes the arguments in order. An option with a value takes the next argument if it is plain. -/
def run (p : Progress) : List Argument → Except Refusal Options
  | [] => p.finish
  | .plain text :: rest => (p.takePlain text).run rest
  | .separator :: rest => p.takeSeparator.run rest
  | .unknown text :: rest => (p.reject text).run rest
  | .option .expression _ (some value) :: rest =>
    { p.pass with expression := some (attachedText value) }.run rest
  | .option .expression _ none :: .plain text :: rest =>
    { p.pass with expression := some (some text) }.run rest
  | .option .expression _ none :: _ => .error (.usage (.missingValue .expression))
  | .option .tree _ none :: rest => { p.pass with tree := true }.run rest
  | .option .verbose _ none :: rest => { p.pass with verbose := true }.run rest
  | .option .help _ none :: _ => .error .help
  | .option .help true (some value) :: rest =>
    .error (helpCluster (rest.head?.any fun
      | .plain _ => true
      | _ => false) value)
  | .option flag _ (some value) :: _ =>
    .error (.usage (.ignoredValue flag (String.ofList value)))

end Progress

def Options.ofArguments (argv : List String) : Except Refusal Options :=
  match Argument.ofTexts argv with
  | .error fault => .error (.usage fault)
  | .ok arguments => Progress.start.run arguments

end Formulary
