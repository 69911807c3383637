import Formulary.Parse
import Formulary.Settings

/-!
What reading texts leaves in the log. Records have a level; those below a threshold are not written.
-/
namespace Formulary

inductive Level where
  | debug | info
deriving DecidableEq, Repr

namespace Level

def name : Level → String
  | .debug => "DEBUG"
  | .info => "INFO"

def weight : Level → Nat
  | .debug => 10
  | .info => 20

end Level

structure Record where
  level : Level
  logger : String
  message : String
deriving DecidableEq, Repr

def Record.line (r : Record) : String := r.level.name ++ " " ++ r.logger ++ " " ++ r.message ++ "\n"

/-- Names of thresholds; no record reaches the higher ones. -/
def thresholds : List (String × Nat) :=
  [("CRITICAL", 50), ("FATAL", 50), ("ERROR", 40), ("WARN", 30), ("WARNING", 30), ("INFO", 20),
    ("DEBUG", 10), ("NOTSET", 0)]

/-- Why a name cannot set a threshold: it stands for something else that has to do with logs. -/
inductive ThresholdFault where
  | lineLayout | layoutStyles
deriving DecidableEq, Repr

def ThresholdFault.message : ThresholdFault → String
  | .lineLayout => "Unknown level: '%(levelname)s:%(name)s:%(message)s'"
  | .layoutStyles =>
    "Level not an integer or a valid string: \x7b" ++
      "'%': (<class 'logging.PercentStyle'>, '%(levelname)s:%(name)s:%(message)s'), " ++
      "'\x7b': (<class 'logging.StrFormatStyle'>, " ++
      "'\x7blevelname\x7d:\x7bname\x7d:\x7bmessage\x7d'), " ++
      "'$': (<class 'logging.StringTemplateStyle'>, " ++
      "'$\x7blevelname\x7d:$\x7bname\x7d:$\x7bmessage\x7d')\x7d"

/-- Names that stand for something else than a threshold. -/
def misnomers : List (String × ThresholdFault) :=
  [("BASIC_FORMAT", .lineLayout), ("_STYLES", .layoutStyles)]

/-- The capitals of a letter, as far as they are letters without marks: four letters outside the basic
alphabet have such capitals. -/
def capitals (c : Char) : List Char :=
  if c = 'ı' then ['I'] else if c = 'ſ' then ['S'] else if c = 'ﬅ' || c = 'ﬆ' then ['S', 'T']
  else [c.toUpper]

/-- A name that stands for nothing stands for warnings. -/
def thresholdNamed (name : String) : Except ThresholdFault Nat :=
  let name := String.ofList (name.toList.flatMap capitals)
  match misnomers.lookup name with
  | some fault => .error fault
  | none => .ok ((thresholds.lookup name).getD 30)

/-- The lines of the records that reach a threshold. -/
def writeLog (threshold : Nat) (records : List Record) : String :=
  String.join ((records.filter fun r => threshold ≤ r.level.weight).map Record.line)

namespace Record

def ofParser (message : String) : Record := ⟨.debug, "texcalc_lang.parser", message⟩

/-- Before the first text is read. -/
def building (s : Settings) : Record :=
  ofParser ("Building LALR parser (debug=" ++ boolText s.debug ++ ", cache=" ++ boolText s.cacheGrammar
    ++ ")")

def rejected (r : Report) : Record := ofParser ("Rejected input: " ++ r.text)

def parsedText (count : Nat) : String := "Parsed " ++ toString count ++ " statement(s)"

def parsed (count : Nat) : Record := ofParser (parsedText count)

def programEnds (line : Nat) : Record := ofParser ("Program ends at line " ++ toString line)

end Record

/-- Logged before a sheet is read: the line that ends it early. -/
def sheetPrelude (text : List Char) : List Record :=
  (endLineStart? text).toList.map fun offset => .programEnds ((text.take offset).count '\n' + 1)

/-- Logged after a sheet has been read. -/
def sheetOutcome (text : List Char) : Except Rejection Sheet → Record
  | .ok s => .parsed s.length
  | .error r => .rejected (r.report text)

/-- Logged after a single statement or expression has been read. -/
def lineOutcome (text : List Char) {α : Type} : Except Rejection α → List Record
  | .ok _ => []
  | .error r => [.rejected (r.report text)]

end Formulary
