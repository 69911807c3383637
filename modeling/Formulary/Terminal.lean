import Formulary.Symbol

/-!
The kinds of token, their names, and the words with which messages describe them.
-/
namespace Formulary

inductive Terminal where
  | number | scalar | callee | control
  | vec | unary | binary | ternary | sum
  | equals | index | newline | endMark | endOfText
  | leftParen | rightParen | leftBrace | rightBrace
  | sign (s : InfixSign)
  | comma
  /-- A name that no terminal of the grammar has. -/
  | other (name : String)
deriving DecidableEq, Repr

def Symbol.terminal : Symbol → Terminal
  | .vec => .vec
  | .sum => .sum
  | .unary _ => .unary
  | .binary _ => .binary
  | .ternary _ => .ternary

namespace Terminal

/-- The terminals that occur in rules of the grammar. A control word never does: it is replaced by
the symbol that it names. -/
def grammar : List Terminal :=
  [.number, .scalar, .callee, .vec, .unary, .binary, .ternary, .sum, .equals, .index, .newline,
    .endMark, .endOfText, .leftParen, .rightParen, .leftBrace, .rightBrace, .comma]
    ++ InfixSign.all.map .sign

def signName : InfixSign → String
  | .power => "CIRCUMFLEX"
  | .times => "STAR"
  | .divide => "SLASH"
  | .plus => "PLUS"
  | .minus => "MINUS"

def name : Terminal → String
  | .number => "NUMBER"
  | .scalar => "SCALAR"
  | .callee => "CALLEE"
  | .control => "CONTROL"
  | .vec => "_VEC"
  | .unary => "UNARY_OP"
  | .binary => "BINARY_OP"
  | .ternary => "TERNARY_OP"
  | .sum => "SUM_OP"
  | .equals => "EQUALS"
  | .index => "_INDEX"
  | .newline => "_NL"
  | .endMark => "EOF"
  | .endOfText => "$END"
  | .leftParen => "LPAR"
  | .rightParen => "RPAR"
  | .leftBrace => "LBRACE"
  | .rightBrace => "RBRACE"
  | .sign s => signName s
  | .comma => "COMMA"
  | .other n => n

def ofName (n : String) : Terminal :=
  ((.control :: grammar).find? (·.name = n)).getD (.other n)

theorem name_ofName (n : String) : (ofName n).name = n := by
  unfold ofName
  cases found : (Terminal.control :: grammar).find? (·.name = n) with
  | none => rfl
  | some t => simpa using List.find?_some found

/-- Symbols of one, two or three operands share one description, as do the two ends. -/
def description : Terminal → String
  | .number => "number"
  | .scalar => "identifier"
  | .callee => "function call"
  | .control => "control sequence"
  | .vec => "'\\vec'"
  | .unary | .binary | .ternary => "symbol"
  | .sum => "'\\sum_'"
  | .equals => "'='"
  | .index => "'_\x7b'"
  | .newline => "newline"
  | .endMark | .endOfText => "end of input"
  | .leftParen => "'('"
  | .rightParen => "')'"
  | .leftBrace => "'\x7b'"
  | .rightBrace => "'\x7d'"
  | .sign s => String.ofList ['\'', s.character, '\'']
  | .comma => "','"
  | .other n => n

/-- Puts a word in its place in an ascending list, unless it is there. -/
def insertWord (w : String) : List String → List String
  | [] => [w]
  | v :: vs => if w < v then w :: v :: vs else if w = v then v :: vs else v :: insertWord w vs

theorem mem_insertWord (w v : String) (vs : List String) :
    v ∈ insertWord w vs ↔ v = w ∨ v ∈ vs := by
  induction vs with
  | nil => simp [insertWord]
  | cons u us ih =>
    simp only [insertWord]
    split
    · simp
    · split
      · next same => subst same; simp
      · simp only [List.mem_cons, ih]; grind

theorem insertWord_pairwise (w : String) (vs : List String) (h : vs.Pairwise (· < ·)) :
    (insertWord w vs).Pairwise (· < ·) := by
  induction vs with
  | nil => simp [insertWord]
  | cons u us ih =>
    obtain ⟨head, tail⟩ := List.pairwise_cons.mp h
    simp only [insertWord]
    split
    · next less =>
      refine List.pairwise_cons.mpr ⟨fun v member => ?_, h⟩
      rcases List.mem_cons.mp member with rfl | member
      · exact less
      · exact String.lt_trans less (head v member)
    · split
      · exact h
      · next notLess different =>
        refine List.pairwise_cons.mpr ⟨fun v member => ?_, ih tail⟩
        rcases (mem_insertWord w v us).mp member with rfl | member
        · have := String.le_antisymm (String.not_lt.mp notLess)
          grind [String.not_lt]
        · exact head v member

/-- The descriptions of terminals, ascending and each once. -/
def describe (ts : List Terminal) : List String :=
  ts.foldr (fun t words => insertWord t.description words) []

theorem describe_pairwise (ts : List Terminal) : (describe ts).Pairwise (· < ·) := by
  induction ts with
  | nil => simp [describe]
  | cons t ts ih => exact insertWord_pairwise _ _ ih

theorem mem_describe (ts : List Terminal) (w : String) :
    w ∈ describe ts ↔ ∃ t ∈ ts, t.description = w := by
  induction ts with
  | nil => simp [describe]
  | cons t ts ih =>
    have step : w ∈ describe (t :: ts) ↔ w = t.description ∨ w ∈ describe ts := mem_insertWord _ _ _
    rw [step, ih]
    grind

/-- What a message says to expect. A control word can be scanned anywhere, so it is named only where
nothing else is. -/
def expectation (ts : List Terminal) : List String :=
  let wanted := ts.filter (· ≠ .control)
  describe (if wanted.isEmpty then ts else wanted)

end Terminal
end Formulary
