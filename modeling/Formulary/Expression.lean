import Formulary.Number.Binary64
import Formulary.Operator

/-!
Formulas and statements. An expression has no declarations inside it, so a declaration is a kind of
statement and not a kind of expression.
-/
namespace Formulary

/-- A single letter, which names a number or, as `\vec{x}`, a vector. -/
inductive Identifier where
  | scalar (name : Char)
  | vector (name : Char)
deriving DecidableEq, Repr, Inhabited

inductive Expression where
  | number (value : Binary64)
  | variable (id : Identifier)
  | call (callee : Char) (argument : Expression)
  /-- A vector has two items or more. -/
  | vector (first second : Expression) (others : List Expression)
  | sign (s : InfixSign) (left right : Expression)
  | index (base subscript : Expression)
  | unary (s : UnarySymbol) (operand : Expression)
  | binary (s : BinarySymbol) (left right : Expression)
  | ternary (s : TernarySymbol) (first second third : Expression)
  | sum (id : Identifier) (start bound summand : Expression)
deriving Repr, Inhabited

/-- What a declaration may define: a name, a function of one parameter, or a map over the items of a
vector, written with the item's index. -/
inductive Head where
  | name (id : Identifier)
  | applied (callee : Char) (parameter : Identifier)
  | mapped (callee parameter index : Char)
deriving DecidableEq, Repr

inductive Statement where
  | expression (e : Expression)
  | declaration (head : Head) (body : Expression)
deriving Repr

/-- A sheet is a list of statements, one to a line. -/
abbrev Sheet := List Statement

end Formulary
