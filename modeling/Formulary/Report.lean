import Formulary.Text.Place
import Formulary.Text.Quoted
import Formulary.Terminal

/-!
Faults of a text and how they are reported: what is wrong, where, what could have stood there and what
was found instead.
-/
namespace Formulary

/-- Why a text is refused. -/
inductive Cause where
  /-- A token of the grammar that does not fit. -/
  | unexpected (t : Terminal) (text : String)
  | character (c : Char)
  | unknownSymbol (word : String)
  /-- The text before the `=` of a declaration names nothing that can be declared. -/
  | invalidTarget
deriving DecidableEq, Repr

namespace Cause

def found : Cause → String
  | .unexpected .newline _ => Terminal.newline.description
  | .unexpected .endMark _ => Terminal.endMark.description
  | .unexpected .endOfText _ => Terminal.endOfText.description
  | .unexpected _ text => quoted text
  | .character c => quoted (String.ofList [c])
  | .unknownSymbol word => quoted word
  | .invalidTarget => Terminal.equals.description

def message (cause : Cause) : String :=
  match cause with
  | .unexpected _ _ => "unexpected " ++ cause.found
  | .character _ => "unexpected character " ++ cause.found
  | .unknownSymbol word => "unknown symbol '" ++ word ++ "'"
  | .invalidTarget => "invalid declaration target"

end Cause

/-- A fault as it is reported. Positions can be unknown where a token is made by hand. -/
structure Report where
  message : String
  position : Option Int
  line : Option Int
  column : Option Int
  expected : List String
  found : Option String
deriving DecidableEq, Repr

namespace Report

def numberText : Option Int → String
  | some n => toString n
  | none => "None"

/-- The fault in one line. -/
def text (r : Report) : String :=
  r.message ++ " at line " ++ numberText r.line ++ ", column " ++ numberText r.column
    ++ (if r.expected.isEmpty then "" else "; expected " ++ ", ".intercalate r.expected)
    ++ (r.found.map ("; found " ++ ·)).getD ""

/-- The line without the carriage returns at its end. -/
def shownLine (line : List Char) : List Char := (line.reverse.dropWhile (· = '\r')).reverse

/-- The line of the text in question and a caret under the column. -/
def context (r : Report) (text : List Char) : String :=
  match r.line, r.column with
  | some line, some column =>
    if line < 1 then ""
    else match (splitLines text)[(line - 1).toNat]? with
      | none => ""
      | some shown =>
        String.ofList (shownLine shown ++ '\n' :: List.replicate (max column 1 - 1).toNat ' ' ++ ['^'])
  | _, _ => ""

/-- A fault at a position of a text. -/
def ofCause (cause : Cause) (text : List Char) (position : Int) (expected : List String) : Report :=
  let place := locate text position
  { message := cause.message
    position := some position
    line := some place.line
    column := some place.column
    expected
    found := some cause.found }

end Report
end Formulary
