import Formulary.Reader.Expected
import Formulary.Report
import Formulary.Token

/-!
Reading texts. A text is cut into pieces, and the pieces are fed one by one into the state of reading;
the first that is refused is the fault. Heads of declarations are judged when the whole text has been
read.
-/
namespace Formulary

/-- A fault found while reading, with the terminals that could have stood at its position. -/
structure Rejection where
  cause : Cause
  position : Nat
  expected : List Terminal
deriving DecidableEq, Repr

def Rejection.report (r : Rejection) (text : List Char) : Report :=
  .ofCause r.cause text r.position (Terminal.expectation r.expected)

/-- A declaration whose head names nothing that can be declared is a fault at its `=`. -/
def Clause.statement : Clause → Except Rejection Statement
  | .expression e => .ok (.expression e)
  | .declaration (some head) _ body => .ok (.declaration head body)
  | .declaration none equals _ => .error ⟨.invalidTarget, equals, [.newline]⟩

namespace State

def refusal (state : State) (t : Terminal) (text : List Char) (position : Nat) : Rejection :=
  ⟨.unexpected t (String.ofList text), position, state.expected⟩

def takePiece (state : State) (p : Placed) : Except Rejection State :=
  match p.piece with
  | .lexeme l => (state.take p.start l).mapError (·.refusal l.terminal l.text p.start)
  | .unknown word =>
    .error ⟨.unknownSymbol (String.ofList ('\\' :: word)), p.start, symbolTerminals⟩
  | .stray c => .error ⟨.character c, p.start, .control :: state.sought⟩

def takePieces (state : State) (pieces : List Placed) : Except Rejection State :=
  pieces.foldlM takePiece state

theorem takePieces_append (state : State) (as bs : List Placed) :
    state.takePieces (as ++ bs) = (state.takePieces as).bind (·.takePieces bs) :=
  List.foldlM_append

end State

/-- Where the last piece begins. A text that ends too early is at fault there. -/
def lastStart (pieces : List Placed) : Nat := (pieces.getLast?.map (·.start)).getD 0

/-- The statements of a text, to be judged when all of it has been read. -/
def readClauses (goal : Goal) (text : List Char) : Except Rejection (List Clause) := do
  let pieces := scan text
  let state ← (State.start goal).takePieces pieces
  let clauses ← state.finish.mapError (·.refusal .endOfText [] (lastStart pieces))
  return clauses.reverse

def readStatements (goal : Goal) (text : List Char) : Except Rejection (List Statement) := do
  (← readClauses goal text).mapM Clause.statement

/-- Nothing was read where something is due. -/
def emptyText : Rejection := ⟨.unexpected .endOfText "", 0, []⟩

def parseStatement (text : List Char) : Except Rejection Statement := do
  match ← readStatements .line text with
  | s :: _ => .ok s
  | [] => .error emptyText

def parseExpression (text : List Char) : Except Rejection Expression := do
  match ← readStatements .formula text with
  | .expression e :: _ => .ok e
  | .declaration _ _ :: _ => .error ⟨.invalidTarget, 0, [.newline]⟩
  | [] => .error emptyText

/-- Whether a line begins with the end mark, blanks aside. -/
def isEndLine (line : List Char) : Bool :=
  (line.dropWhile isBlank).take 3 = Lexeme.endMark.text

/-- The offset of the first line that begins with the end mark. -/
def endLineStart? (text : List Char) : Option Nat :=
  go 0 (splitLines text)
where
  go (offset : Nat) : List (List Char) → Option Nat
    | [] => none
    | line :: rest => if isEndLine line then some offset else go (offset + line.length + 1) rest

/-- The part of a sheet that is read. -/
def sheetBody (text : List Char) : List Char :=
  match endLineStart? text with
  | some offset => text.take offset
  | none => text

/-- The line that ends every sheet. -/
def endLine : List Char := '\n' :: Lexeme.endMark.text

/-- A sheet is read up to an end line that is put behind it; faults there count as at the end of the
part that is read. -/
def parseSheet (text : List Char) : Except Rejection Sheet :=
  let body := sheetBody text
  (readStatements .sheet (body ++ endLine)).mapError fun r =>
    { r with position := min r.position body.length }

end Formulary
