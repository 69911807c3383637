import Formulary.Reader.State
import Formulary.Lexeme

/-!
One step of reading. `State.feed` takes a lexeme into a state, or refuses it and answers the state in
which it is refused: a sign that can only follow a complete expression first completes it, whether or
not it then fits.
-/
namespace Formulary

/-- The value of a number as it is written. -/
def numberValue (whole fraction : List Char) : Binary64 :=
  .ofRatio false (digitsValue (whole ++ fraction)) (tenPow fraction.length)

namespace Site

def atStart (goal : Goal) (done : List Clause) : Site := ⟨goal, done, .first, [], []⟩

/-- The site inside a construct that opens where an operand is due. -/
def enter (site : Site) (frame : Frame) : Site :=
  { site with frames := (frame, site.chain) :: site.frames, chain := [] }

/-- The site around the innermost construct, with the chain that it interrupted. -/
def leave (site : Site) (frames : List (Frame × Chain)) (chain : Chain) : Site :=
  { site with frames, chain }

def clause (site : Site) (p : Phrase) : Clause :=
  match site.root with
  | .first => .expression p.expr
  | .body head equals => .declaration head equals p.expr

/-- Joins the chain and ends all summands that end with it. -/
def settleFrames : List (Frame × Chain) → Chain → Phrase → List (Frame × Chain) × Phrase
  | (.summand id start bound, outer) :: frames, chain, p =>
    settleFrames frames outer (.plain (.sum id start bound (Chain.join chain p).expr))
  | frames, chain, p => (frames, Chain.join chain p)

/-- What is settled stands directly inside a construct that has a sign to close it. -/
theorem settleFrames_closed (frames : List (Frame × Chain)) (chain : Chain) (p : Phrase) :
    ∀ id start bound outer rest,
      (settleFrames frames chain p).1 ≠ (.summand id start bound, outer) :: rest := by
  fun_induction settleFrames frames chain p with
  | case1 id start bound outer frames chain p ih => exact ih
  | case2 frames chain p other =>
    intro id start bound outer rest same
    exact other id start bound outer rest same

def settle (site : Site) (p : Phrase) : Site × Phrase :=
  let (frames, whole) := settleFrames site.frames site.chain p
  (site.leave frames [], whole)

end Site

/-- The first lexeme of an operand. -/
def feedOperand (site : Site) (l : Lexeme) : Option State :=
  match l with
  | .number whole fraction =>
    some (.inside site (.value (.plain (.number (numberValue whole fraction))) .plain))
  | .scalar c => some (.inside site (.value (.identifier (.scalar c)) .plain))
  | .callee c => some (.inside site (.callParen c))
  | .symbol .vec => some (.inside site (.vecBrace .variable))
  | .symbol .sum => some (.inside site .sumBrace)
  | .symbol (.unary s) => some (.inside site (.operandBrace (.unary s) true))
  | .symbol (.binary s) => some (.inside site (.operandBrace (.binary s) true))
  | .symbol (.ternary s) => some (.inside site (.operandBrace (.ternary s) true))
  | .leftParen => some (.inside (site.enter .group) .operand)
  | _ => none

/-- The lexeme behind a complete expression that is not inside any construct. -/
def feedRoot (site : Site) (p : Phrase) (offset : Nat) (l : Lexeme) : Option State :=
  match site.goal, site.root, l with
  | .sheet, _, .newline => some (.fresh .sheet (site.clause p :: site.done) true)
  | _, _, .newline => some (.ended (site.clause p))
  | .formula, _, _ => none
  | _, .first, .equals =>
    some (.inside { site with root := .body p.head offset, chain := [] } .operand)
  | _, _, _ => none

/-- The lexeme behind a complete expression: it must close or continue the construct around it. -/
def feedWhole (site : Site) (p : Phrase) (offset : Nat) (l : Lexeme) : Option State :=
  match site.frames with
  | [] => feedRoot site p offset l
  | (frame, outer) :: frames =>
    let around := site.leave frames outer
    match frame, l with
    | .group, .rightParen => some (.inside around (.value (.plain p.expr) .plain))
    | .group, .comma => some (.inside (around.enter (.second p.expr)) .operand)
    | .second a, .rightParen =>
      some (.inside around (.value (.plain (.vector a p.expr [])) .plain))
    | .second a, .comma => some (.inside (around.enter (.later a p.expr [])) .operand)
    | .later a b others, .rightParen =>
      some (.inside around (.value (.plain (.vector a b (p.expr :: others).reverse)) .plain))
    | .later a b others, .comma =>
      some (.inside (around.enter (.later a b (p.expr :: others))) .operand)
    | .argument f, .rightParen => some (.inside around (.value (.call f p) .plain))
    | .subscript base, .rightBrace => some (.inside around (.value (.index base p) .indexed))
    | .operand a, .rightBrace =>
      match a.supply p.expr with
      | .inl a => some (.inside around (.operandBrace a false))
      | .inr e => some (.inside around (.value (.plain e) .braced))
    | .start id, .rightBrace => some (.inside around (.sumCaret id p.expr))
    | .bound id start, .rightBrace =>
      some (.inside (around.enter (.summand id start p.expr)) .operand)
    | _, _ => none

/-- Lexemes that can follow some expression, and so complete the one before them. -/
def follows : Lexeme → Bool
  | .index | .sign _ | .equals | .newline | .rightParen | .rightBrace | .comma => true
  | _ => false

def feedSettled (site : Site) (p : Phrase) (offset : Nat) (l : Lexeme) : Except State State :=
  let (site, p) := site.settle p
  match feedWhole site p offset l with
  | some state => .ok state
  | none => .error (.inside site (.whole p))

/-- An index mark behind an index ends the summand that it stands in and indexes the sum. -/
def feedIndex (site : Site) (p : Phrase) (ending : Ending) : Except State State :=
  match ending, site.frames with
  | .indexed, (.summand id start bound, outer) :: frames =>
    let sum := Phrase.plain (.sum id start bound (Chain.join site.chain p).expr)
    .ok (.inside ((site.leave frames outer).enter (.subscript sum)) .operand)
  | .indexed, _ =>
    let (site, p) := site.settle p
    .error (.inside site (.whole p))
  | _, _ => .ok (.inside (site.enter (.subscript p)) .operand)

def feedInside (site : Site) (focus : Focus) (offset : Nat) (l : Lexeme) : Except State State :=
  let refused : Except State State := .error (.inside site focus)
  let taken (s : Option State) : Except State State := s.elim refused .ok
  let go (focus : Focus) : Except State State := .ok (.inside site focus)
  match focus, l with
  | .operand, l => taken (feedOperand site l)
  | .value p _, .sign s => .ok (.inside { site with chain := (p.expr, s) :: site.chain } .operand)
  | .value p ending, .index => feedIndex site p ending
  | .value p _, l => if follows l then feedSettled site p offset l else refused
  | .whole p, l => taken (feedWhole site p offset l)
  | .callParen f, .leftParen => .ok (.inside (site.enter (.argument f)) .operand)
  | .vecBrace use, .leftBrace => go (.vecName use)
  | .vecName use, .scalar c => go (.vecClose use c)
  | .vecClose .variable c, .rightBrace => go (.value (.identifier (.vector c)) .plain)
  | .vecClose .bound c, .rightBrace => go (.sumEquals (.vector c))
  | .operandBrace a _, .leftBrace => .ok (.inside (site.enter (.operand a)) .operand)
  | .sumBrace, .leftBrace => go .sumName
  | .sumName, .scalar c => go (.sumEquals (.scalar c))
  | .sumName, .symbol .vec => go (.vecBrace .bound)
  | .sumEquals id, .equals => .ok (.inside (site.enter (.start id)) .operand)
  | .sumCaret id start, .sign .power => go (.sumBound id start)
  | .sumBound id start, .leftBrace => .ok (.inside (site.enter (.bound id start)) .operand)
  | _, _ => refused

namespace State

def feed (state : State) (offset : Nat) (l : Lexeme) : Except State State :=
  match state, l with
  | .fresh goal done _, .newline => .ok (.fresh goal done true)
  | .fresh .sheet done _, .endMark => .ok (.sealed done)
  | .fresh goal done _, l => (feedOperand (.atStart goal done) l).elim (.error state) .ok
  | .inside site focus, l => feedInside site focus offset l
  | .ended _, .newline => .ok state
  | .ended _, _ => .error state
  | .sealed _, _ => .error state

/-- Whether a letter can only be a name, so that it is one even with a parenthesis behind it. -/
def wantsName : State → Bool
  | .inside _ (.vecName _) | .inside _ .sumName => true
  | _ => false

/-- A lexeme of the text, taken in the sense that fits the state. -/
def take (state : State) (offset : Nat) (l : Lexeme) : Except State State :=
  match l with
  | .callee c => state.feed offset (if state.wantsName then .scalar c else .callee c)
  | l => state.feed offset l

/-- The end of the text: the statements read, the latest first, or the state in which it is too early
to end. -/
def finish (state : State) : Except State (List Clause) :=
  match state with
  | .fresh _ _ _ => .error state
  | .ended clause => .ok [clause]
  | .sealed done => .ok done
  | .inside site focus =>
    let ending (site : Site) (p : Phrase) : Except State (List Clause) :=
      if site.frames.isEmpty && site.goal ≠ .sheet then .ok [site.clause p]
      else .error (.inside site (.whole p))
    match focus with
    | .value p _ => let (site, p) := site.settle p; ending site p
    | .whole p => ending site p
    | _ => .error state

end State
end Formulary
