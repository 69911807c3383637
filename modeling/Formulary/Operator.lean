/-!
The operators of the notation. An operator is an infix sign, a mark with a syntax of its own, or a
symbol: a named function with one, two or three operands in braces.
-/
namespace Formulary

inductive InfixSign where
  | power | times | divide | plus | minus
deriving DecidableEq, Repr

inductive UnarySymbol where
  | sqrt | sin | cos | tan | arcsin | arccos | arctan | sinh | cosh | tanh
  | exp | ln | log | abs | floor | ceil | norm
deriving DecidableEq, Repr

inductive BinarySymbol where
  | frac | root | binom | max | min | mod | dot | cross
deriving DecidableEq, Repr

/-- The symbols with three operands, apart from the sum, whose operands are written differently. -/
inductive TernarySymbol where
  | clamp | lerp
deriving DecidableEq, Repr

inductive Operator where
  | assignment
  | index
  | sign (s : InfixSign)
  | sum
  | unary (s : UnarySymbol)
  | binary (s : BinarySymbol)
  | ternary (s : TernarySymbol)
deriving DecidableEq, Repr

def UnarySymbol.all : List UnarySymbol :=
  [.sqrt, .sin, .cos, .tan, .arcsin, .arccos, .arctan, .sinh, .cosh, .tanh,
    .exp, .ln, .log, .abs, .floor, .ceil, .norm]

def BinarySymbol.all : List BinarySymbol :=
  [.frac, .root, .binom, .max, .min, .mod, .dot, .cross]

def TernarySymbol.all : List TernarySymbol := [.clamp, .lerp]

def InfixSign.all : List InfixSign := [.power, .times, .divide, .plus, .minus]

theorem UnarySymbol.mem_all (s : UnarySymbol) : s ∈ all := by cases s <;> decide

theorem BinarySymbol.mem_all (s : BinarySymbol) : s ∈ all := by cases s <;> decide

theorem TernarySymbol.mem_all (s : TernarySymbol) : s ∈ all := by cases s <;> decide

theorem InfixSign.mem_all (s : InfixSign) : s ∈ all := by cases s <;> decide

def UnarySymbol.spelling : UnarySymbol → String
  | .sqrt => "sqrt"
  | .sin => "sin"
  | .cos => "cos"
  | .tan => "tan"
  | .arcsin => "arcsin"
  | .arccos => "arccos"
  | .arctan => "arctan"
  | .sinh => "sinh"
  | .cosh => "cosh"
  | .tanh => "tanh"
  | .exp => "exp"
  | .ln => "ln"
  | .log => "log"
  | .abs => "abs"
  | .floor => "floor"
  | .ceil => "ceil"
  | .norm => "norm"

def BinarySymbol.spelling : BinarySymbol → String
  | .frac => "frac"
  | .root => "root"
  | .binom => "binom"
  | .max => "max"
  | .min => "min"
  | .mod => "mod"
  | .dot => "dot"
  | .cross => "cross"

def TernarySymbol.spelling : TernarySymbol → String
  | .clamp => "clamp"
  | .lerp => "lerp"

def InfixSign.character : InfixSign → Char
  | .power => '^'
  | .times => '*'
  | .divide => '/'
  | .plus => '+'
  | .minus => '-'

namespace Operator

/-- Marks and signs first, then the symbols by their number of operands. -/
def all : List Operator :=
  [.assignment, .index] ++ InfixSign.all.map .sign ++ [.sum] ++ UnarySymbol.all.map .unary
    ++ BinarySymbol.all.map .binary ++ TernarySymbol.all.map .ternary

theorem mem_all (o : Operator) : o ∈ all := by
  cases o <;> simp [all, UnarySymbol.mem_all, BinarySymbol.mem_all, TernarySymbol.mem_all,
    InfixSign.mem_all]

/-- How the operator is spelt in a formula: a sign, or the name of a control word. -/
def spelling : Operator → String
  | .assignment => "="
  | .index => "_"
  | .sign s => s.character.toString
  | .sum => "sum_"
  | .unary s => s.spelling
  | .binary s => s.spelling
  | .ternary s => s.spelling

def capitals (s : String) : String := String.ofList (s.toList.map Char.toUpper)

/-- The name under which trees show the operator. -/
def name : Operator → String
  | .assignment => "ASSIGNMENT"
  | .index => "INDEX"
  | .sign .power => "EXPONENTIATION"
  | .sign .times => "MULTIPLICATION"
  | .sign .divide => "DIVISION"
  | .sign .plus => "ADDITION"
  | .sign .minus => "SUBTRACTION"
  | .sum => "SUM"
  | .unary s => capitals s.spelling
  | .binary s => capitals s.spelling
  | .ternary s => capitals s.spelling

def ofSpelling? (s : String) : Option Operator := all.find? (·.spelling = s)

def ofName? (s : String) : Option Operator := all.find? (·.name = s)

end Operator
end Formulary
