import Formulary.Reader.Feed

/-!
What a state expects. The terminals that it takes are found by asking it for each. A scanner that knows
no more than what has just been read looks for some terminals too many; a character that begins none of
them is reported against that list.
-/
namespace Formulary

/-- The terminals with characters of their own that can begin an operand. -/
def operandTerminals : List Terminal := [.leftParen, .callee, .scalar, .number]

/-- The terminals that can follow some expression. -/
def followTerminals : List Terminal :=
  InfixSign.all.map .sign
    ++ [.index, .rightParen, .rightBrace, .comma, .equals, .newline]

/-- A lexeme of a terminal, to ask a state whether it takes any. -/
def Terminal.sample : Terminal → Option Lexeme
  | .number => some (.number ['0'] [])
  | .scalar => some (.scalar 'a')
  | .callee => some (.callee 'a')
  | .vec => some (.symbol .vec)
  | .unary => some (.symbol (.unary .sqrt))
  | .binary => some (.symbol (.binary .frac))
  | .ternary => some (.symbol (.ternary .clamp))
  | .sum => some (.symbol .sum)
  | .equals => some .equals
  | .index => some .index
  | .newline => some .newline
  | .endMark => some .endMark
  | .leftParen => some .leftParen
  | .rightParen => some .rightParen
  | .leftBrace => some .leftBrace
  | .rightBrace => some .rightBrace
  | .sign s => some (.sign s)
  | .comma => some .comma
  | .control | .endOfText | .other _ => none

namespace State

def accepts (state : State) (t : Terminal) : Bool :=
  match t, t.sample with
  | .endOfText, _ => state.finish.isOk
  | _, some l => (state.feed 0 l).isOk
  | _, none => false

/-- The terminals that the state takes. -/
def expected (state : State) : List Terminal := Terminal.grammar.filter state.accepts

/-- The terminals that the scanner looks for in a state. It knows less than the state: behind an
operand and behind a newline it looks for all that may follow in any text. -/
def sought : State → List Terminal
  | .fresh .sheet _ _ => operandTerminals ++ [.newline, .endMark]
  | .fresh _ _ false => operandTerminals ++ [.newline]
  | .fresh _ _ true | .ended _ => operandTerminals ++ [.newline, .endMark]
  | .sealed _ => []
  | .inside _ focus =>
    match focus with
    | .operand => operandTerminals
    | .value _ .braced | .operandBrace _ false => .leftBrace :: followTerminals
    | .value _ _ | .whole _ | .sumEquals _ => followTerminals
    | .callParen _ => [.leftParen]
    | .vecName _ => [.scalar]
    | .sumName => [.scalar]
    | .vecClose _ _ => [.rightBrace]
    | .sumCaret _ _ => [.sign .power]
    | .vecBrace _ | .operandBrace _ true | .sumBrace | .sumBound _ _ => [.leftBrace]

end State
end Formulary
