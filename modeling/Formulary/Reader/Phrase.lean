import Formulary.Expression

/-!
Expressions as they are read. Operands of infix signs are collected in a chain and joined when the
expression is complete: `^` binds tighter than `*` and `/`, these tighter than `+` and `-`, and signs
of one tier join from the left.
-/
namespace Formulary

/-- An expression that has been read, with the declaration head that its text would be. -/
structure Phrase where
  expr : Expression
  head : Option Head
deriving Repr, Inhabited

/-- A phrase that cannot stand before the `=` of a declaration. -/
def Phrase.plain (e : Expression) : Phrase := ⟨e, none⟩

namespace Phrase

def identifier (id : Identifier) : Phrase := ⟨.variable id, some (.name id)⟩

/-- A call is a head if its argument is a bare identifier. -/
def call (callee : Char) (argument : Phrase) : Phrase :=
  { expr := .call callee argument.expr
    head := match argument.head with
      | some (.name id) => some (.applied callee id)
      | _ => none }

/-- An indexed call is a head if the call binds a vector and the index is a bare letter. -/
def index (base subscript : Phrase) : Phrase :=
  { expr := .index base.expr subscript.expr
    head := match base.head, subscript.head with
      | some (.applied f (.vector p)), some (.name (.scalar i)) => some (.mapped f p i)
      | _, _ => none }

end Phrase

/-- Operands with the sign behind each, the latest first. -/
abbrev Chain := List (Expression × InfixSign)

/-- The left operands that wait at each tier for a right operand. -/
structure Tiers where
  sums : Option (Expression × InfixSign)
  products : Option (Expression × InfixSign)
  powers : Option (Expression × InfixSign)

namespace Tiers

def empty : Tiers := ⟨none, none, none⟩

def attach (left : Option (Expression × InfixSign)) (right : Expression) : Expression :=
  match left with
  | none => right
  | some (e, s) => .sign s e right

def power (t : Tiers) (e : Expression) : Expression := attach t.powers e

def product (t : Tiers) (e : Expression) : Expression := attach t.products (t.power e)

def sum (t : Tiers) (e : Expression) : Expression := attach t.sums (t.product e)

/-- An operand and the sign behind it: all that binds as tightly as the sign is joined. -/
def push (t : Tiers) (e : Expression) (s : InfixSign) : Tiers :=
  match s with
  | .power => { t with powers := some (t.power e, s) }
  | .times | .divide => { t with products := some (t.product e, s), powers := none }
  | .plus | .minus => ⟨some (t.sum e, s), none, none⟩

end Tiers

namespace Chain

def tiers (chain : Chain) : Tiers :=
  chain.foldr (fun operand t => t.push operand.1 operand.2) Tiers.empty

/-- The expression that a chain makes with its last operand. -/
def join (chain : Chain) (last : Phrase) : Phrase :=
  match chain with
  | [] => last
  | chain => .plain (Chain.tiers chain |>.sum last.expr)

end Chain
end Formulary
