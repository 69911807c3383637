import Formulary.Report

/-!
Tokens as records of kind, text and position, apart from any text that they come from. Control words
are resolved on the fly, each to the kind of the symbol that it names.
-/
namespace Formulary

structure Token where
  terminal : Terminal
  text : String
  position : Option Int
  line : Option Int
  column : Option Int
deriving DecidableEq, Repr

/-- What could stand for a control word that names nothing. -/
def symbolTerminals : List Terminal := [.sum, .unary, .vec]

/-- A position within the part of a text that counts. -/
def clampTo (limit position : Int) : Int := min (max position 0) limit

namespace Token

/-- The name of a control word is its text without the first character. -/
def symbolName (t : Token) : String := String.ofList (t.text.toList.drop 1)

def unknown (t : Token) : Report :=
  let cause := Cause.unknownSymbol t.text
  { message := cause.message
    position := t.position
    line := t.line
    column := t.column
    expected := Terminal.describe symbolTerminals
    found := some cause.found }

def resolve (t : Token) : Except Report Token :=
  if t.terminal = .control then
    match Symbol.ofName? t.symbolName with
    | some s => .ok { t with terminal := s.terminal }
    | none => .error t.unknown
  else .ok t

/-- The tokens resolved up to the first that names nothing, and the report on that one. -/
def resolveAll : List Token → List Token × Option Report
  | [] => ([], none)
  | t :: ts =>
    match t.resolve with
    | .error r => ([], some r)
    | .ok t =>
      let (resolved, fault) := resolveAll ts
      (t :: resolved, fault)

def cause (t : Token) : Cause := .unexpected t.terminal t.text

/-- A token that does not fit a text, of which only the part up to a limit counts. A token without a
position stands at the end of the text. -/
def reportIn (t : Token) (text : List Char) (limit : Int) (expected : List Terminal) : Report :=
  .ofCause t.cause text (clampTo limit (t.position.getD text.length))
    (Terminal.expectation expected)

end Token

/-- A character that begins no piece; a negative position counts from the end of the text. -/
def Report.ofCharacter (text : List Char) (limit position : Int) (expected : List Terminal) :
    Report :=
  let c := (text.drop (cutAt text position)).headD ' '
  .ofCause (.character c) text (clampTo limit position) (Terminal.expectation expected)

/-- A text that ends where more is due. -/
def Report.ofEnd (text : List Char) (limit : Int) (expected : List Terminal) : Report :=
  .ofCause (.unexpected .endOfText "") text (clampTo limit text.length) (Terminal.describe expected)
end Formulary
