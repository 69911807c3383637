import Formulary.Reader.Phrase

/-!
What has been read of a text: the statements before, the constructs that are open around the current
expression, and what is due next inside it.
-/
namespace Formulary

/-- What a text is read as: one expression, one statement, or a sheet of statements. -/
inductive Goal where
  | formula | line | sheet
deriving DecidableEq, Repr

/-- A statement as read. A declaration keeps the offset of its `=`, where a head that cannot be
declared is reported. -/
inductive Clause where
  | expression (e : Expression)
  | declaration (head : Option Head) (equals : Nat) (body : Expression)
deriving Repr

/-- A symbol with the operands that it has so far; another is due. -/
inductive Application where
  | unary (s : UnarySymbol)
  | binary (s : BinarySymbol)
  | binarySecond (s : BinarySymbol) (first : Expression)
  | ternary (s : TernarySymbol)
  | ternarySecond (s : TernarySymbol) (first : Expression)
  | ternaryThird (s : TernarySymbol) (first second : Expression)
deriving Repr

/-- Another operand leaves an application with operands due, or completes it. -/
def Application.supply (a : Application) (e : Expression) : Application ⊕ Expression :=
  match a with
  | .unary s => .inr (.unary s e)
  | .binary s => .inl (.binarySecond s e)
  | .binarySecond s first => .inr (.binary s first e)
  | .ternary s => .inl (.ternarySecond s e)
  | .ternarySecond s first => .inl (.ternaryThird s first e)
  | .ternaryThird s first second => .inr (.ternary s first second e)

/-- A construct that is open around an expression. -/
inductive Frame where
  | group
  | second (first : Expression)
  /-- An item of a vector after its second; the items between are listed latest first. -/
  | later (first second : Expression) (others : List Expression)
  | argument (callee : Char)
  | subscript (base : Phrase)
  | operand (a : Application)
  | start (id : Identifier)
  | bound (id : Identifier) (start : Expression)
  /-- A summand has no closing sign: it ends where the expression around it ends. -/
  | summand (id : Identifier) (start bound : Expression)
deriving Repr

/-- What the outermost expression of a statement is. -/
inductive Root where
  | first
  | body (head : Option Head) (equals : Nat)
deriving Repr

/-- Where an expression is being read. Every open construct, innermost first, comes with the chain that
it interrupts. -/
structure Site where
  goal : Goal
  done : List Clause
  root : Root
  frames : List (Frame × Chain)
  chain : Chain
deriving Repr

/-- What the name of a vector is read for. -/
inductive Naming where
  | variable | bound
deriving DecidableEq, Repr

/-- How the last operand ended. After an index there is no second one; after the braces of an operand a
brace may look like another. -/
inductive Ending where
  | plain | indexed | braced
deriving DecidableEq, Repr

/-- What is due inside an expression. -/
inductive Focus where
  | operand
  | value (p : Phrase) (ending : Ending)
  /-- The expression is complete and its construct has to be closed. -/
  | whole (p : Phrase)
  | callParen (callee : Char)
  | vecBrace (use : Naming)
  | vecName (use : Naming)
  | vecClose (use : Naming) (name : Char)
  | operandBrace (a : Application) (first : Bool)
  | sumBrace
  | sumName
  | sumEquals (id : Identifier)
  | sumCaret (id : Identifier) (start : Expression)
  | sumBound (id : Identifier) (start : Expression)
deriving Repr

inductive State where
  /-- Before a statement, at the start of the text or after newlines. -/
  | fresh (goal : Goal) (done : List Clause) (afterNewline : Bool)
  | inside (site : Site) (focus : Focus)
  /-- After the newline behind the only statement. -/
  | ended (clause : Clause)
  | sealed (done : List Clause)
deriving Repr

def State.start (goal : Goal) : State := .fresh goal [] false

end Formulary
