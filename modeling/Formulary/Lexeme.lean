import Formulary.Terminal
import Formulary.Number.Digit

/-!
The pieces of a formula's text. Blanks separate pieces and are dropped, except that an index mark may
not follow a blank. The pieces do not depend on the grammar: a text falls into them in one way.
-/
namespace Formulary

inductive Lexeme where
  | number (whole fraction : List Char)
  | scalar (name : Char)
  /-- A letter with an opening parenthesis right behind it. -/
  | callee (name : Char)
  | symbol (s : Symbol)
  | equals | index | newline | endMark
  | leftParen | rightParen | leftBrace | rightBrace
  | sign (s : InfixSign)
  | comma
deriving DecidableEq, Repr

namespace Lexeme

def terminal : Lexeme → Terminal
  | .number _ _ => .number
  | .scalar _ => .scalar
  | .callee _ => .callee
  | .symbol s => s.terminal
  | .equals => .equals
  | .index => .index
  | .newline => .newline
  | .endMark => .endMark
  | .leftParen => .leftParen
  | .rightParen => .rightParen
  | .leftBrace => .leftBrace
  | .rightBrace => .rightBrace
  | .sign s => .sign s
  | .comma => .comma

/-- The text that was read as the lexeme. -/
def text : Lexeme → List Char
  | .number whole [] => whole
  | .number whole fraction => whole ++ '.' :: fraction
  | .scalar c | .callee c => [c]
  | .symbol s => '\\' :: s.name.toList
  | .equals => ['=']
  | .index => ['_', '{']
  | .newline => ['\n']
  | .endMark => ['E', 'O', 'F']
  | .leftParen => ['(']
  | .rightParen => [')']
  | .leftBrace => ['{']
  | .rightBrace => ['}']
  | .sign s => [s.character]
  | .comma => [',']

end Lexeme

/-- What the text holds at a place: a lexeme, a control word that names nothing, or a character that
begins no piece. -/
inductive Piece where
  | lexeme (l : Lexeme)
  | unknown (word : List Char)
  | stray (c : Char)
deriving DecidableEq, Repr

structure Placed where
  piece : Piece
  start : Nat
deriving DecidableEq, Repr

def isBlank (c : Char) : Bool := c = ' ' || c = '\t' || c = '\r'

def isLetter (c : Char) : Bool := 'a' ≤ c && c ≤ 'z'

def isWordChar (c : Char) : Bool := c.isAlphanum || c = '_'

/-- The lexemes of a single sign. -/
def signLexeme? : Char → Option Lexeme
  | '(' => some .leftParen
  | ')' => some .rightParen
  | '{' => some .leftBrace
  | '}' => some .rightBrace
  | '+' => some (.sign .plus)
  | '-' => some (.sign .minus)
  | '*' => some (.sign .times)
  | '/' => some (.sign .divide)
  | '^' => some (.sign .power)
  | ',' => some .comma
  | '=' => some .equals
  | '\n' => some .newline
  | _ => none

/-- A point belongs to the number only with a digit behind it. -/
def fractionOf : List Char → List Char
  | '.' :: cs => cs.takeWhile isDigit
  | _ => []

/-- The longest number at the start of a text that starts with a digit. -/
def numberAt (cs : List Char) : Lexeme :=
  .number (cs.takeWhile isDigit) (fractionOf (cs.dropWhile isDigit))

/-- The piece that a control word is, given without its backslash. -/
def wordPiece (word : List Char) : Piece :=
  match Symbol.ofName? (String.ofList word) with
  | some s => .lexeme (.symbol s)
  | none => .unknown word

/-- The piece at the start of a text that does not start with a blank. -/
def pieceAt (afterBlank : Bool) (c : Char) (cs : List Char) : Piece :=
  if isDigit c then .lexeme (numberAt (c :: cs))
  else if isLetter c then .lexeme (if cs.head? = some '(' then .callee c else .scalar c)
  else if c = '\\' && (cs.head?.map isLetter).getD false then wordPiece (cs.takeWhile isWordChar)
  else if c = '_' && !afterBlank && cs.head? = some '{' then .lexeme .index
  else if c = 'E' && cs.take 2 = ['O', 'F'] then .lexeme .endMark
  else match signLexeme? c with
    | some l => .lexeme l
    | none => .stray c

def Piece.text : Piece → List Char
  | .lexeme l => l.text
  | .unknown word => '\\' :: word
  | .stray c => [c]

theorem text_of_signLexeme? {c : Char} {l : Lexeme} (h : signLexeme? c = some l) : l.text = [c] := by
  unfold signLexeme? at h
  split at h <;> cases h <;> rfl

theorem text_wordPiece (word : List Char) : (wordPiece word).text = '\\' :: word := by
  unfold wordPiece
  split
  · next s found => simp [Piece.text, Lexeme.text, Symbol.name_of_ofName? found]
  · rfl

theorem text_numberAt_prefix (cs : List Char) : (numberAt cs).text <+: cs := by
  have whole : cs.takeWhile isDigit <+: cs := List.takeWhile_prefix isDigit
  cases fraction : fractionOf (cs.dropWhile isDigit) with
  | nil => simpa [numberAt, fraction, Lexeme.text] using whole
  | cons d ds =>
    cases rest : cs.dropWhile isDigit with
    | nil => simp [rest, fractionOf] at fraction
    | cons point after =>
      have atPoint : point = '.' ∧ after.takeWhile isDigit = d :: ds := by
        rw [rest] at fraction
        unfold fractionOf at fraction
        split at fraction
        · next same => exact ⟨(List.cons.inj same).1, (List.cons.inj same).2 ▸ fraction⟩
        · cases fraction
      obtain ⟨rfl, digits⟩ := atPoint
      have split : cs = cs.takeWhile isDigit ++ '.' :: after := by
        rw [← rest, List.takeWhile_append_dropWhile]
      have tail : d :: ds <+: after := digits ▸ List.takeWhile_prefix isDigit
      simp only [numberAt, fraction, Lexeme.text]
      conv => rhs; rw [split]
      exact (List.prefix_append_right_inj _).mpr ((List.prefix_cons_inj _).mpr tail)

/-- A piece is a part of the text, from where it begins. -/
theorem text_pieceAt_prefix (afterBlank : Bool) (c : Char) (cs : List Char) :
    (pieceAt afterBlank c cs).text <+: c :: cs := by
  unfold pieceAt
  split
  · exact text_numberAt_prefix (c :: cs)
  split
  · split <;> simp [Piece.text, Lexeme.text]
  split
  · next word =>
    simp only [Bool.and_eq_true, decide_eq_true_eq] at word
    rw [text_wordPiece, word.1]
    exact (List.prefix_cons_inj _).mpr (List.takeWhile_prefix _)
  split
  · next index =>
    simp only [Bool.and_eq_true, decide_eq_true_eq] at index
    obtain ⟨⟨rfl, _⟩, next⟩ := index
    cases cs with
    | nil => simp at next
    | cons d ds => simp_all [Piece.text, Lexeme.text]
  split
  · next endMark =>
    simp only [Bool.and_eq_true, decide_eq_true_eq] at endMark
    obtain ⟨rfl, next⟩ := endMark
    exact (List.prefix_cons_inj _).mpr (next ▸ List.take_prefix 2 cs)
  split
  · next l found => simp [Piece.text, text_of_signLexeme? found]
  · simp [Piece.text]

/-- The pieces of a text with their offsets. The first count says how many characters of the last
piece are still to be passed over; a blank before a character is remembered for the index mark. -/
def scanFrom (passed offset : Nat) (afterBlank : Bool) : List Char → List Placed
  | [] => []
  | c :: cs =>
    match passed with
    | n + 1 => scanFrom n (offset + 1) false cs
    | 0 =>
      if isBlank c then scanFrom 0 (offset + 1) true cs
      else
        let piece := pieceAt afterBlank c cs
        ⟨piece, offset⟩ :: scanFrom (piece.text.length - 1) (offset + 1) false cs

def scan (text : List Char) : List Placed := scanFrom 0 0 false text

end Formulary
