import Formulary.Operator

/-!
What a control word can name: an operator with operands in braces, or the mark of a vector
identifier.
-/
namespace Formulary

inductive Symbol where
  | vec
  | sum
  | unary (s : UnarySymbol)
  | binary (s : BinarySymbol)
  | ternary (s : TernarySymbol)
deriving DecidableEq, Repr

/-- The number of operands of an operator that a control word names. -/
def Operator.arity? : Operator → Option Nat
  | .unary _ => some 1
  | .binary _ => some 2
  | .ternary _ => some 3
  | .sum => some 3
  | .assignment | .index | .sign _ => none

namespace Symbol

/-- The operators with a given number of operands, in the order in which they are listed. -/
def table (arity : Nat) : List Operator :=
  match arity with
  | 1 => UnarySymbol.all.map .unary
  | 2 => BinarySymbol.all.map .binary
  | 3 => .sum :: TernarySymbol.all.map .ternary
  | _ => []

def operators : List Operator := table 1 ++ table 2 ++ table 3

/-- Control words that name no operator. -/
def reserved : List String := ["vec"]

def operator? (name : String) : Option Operator := operators.find? (·.spelling = name)

def ofOperator? : Operator → Option Symbol
  | .sum => some .sum
  | .unary s => some (.unary s)
  | .binary s => some (.binary s)
  | .ternary s => some (.ternary s)
  | .assignment | .index | .sign _ => none

/-- The symbol that a control word without its backslash names. -/
def ofName? (name : String) : Option Symbol :=
  if reserved.contains name then some .vec else (operator? name).bind ofOperator?

def name : Symbol → String
  | .vec => "vec"
  | .sum => Operator.sum.spelling
  | .unary s => s.spelling
  | .binary s => s.spelling
  | .ternary s => s.spelling

theorem ofName?_name (s : Symbol) : ofName? s.name = some s := by
  cases s with
  | vec => decide
  | sum => decide
  | unary s => cases s <;> decide
  | binary s => cases s <;> decide
  | ternary s => cases s <;> decide

/-- A symbol other than the mark of a vector is found again by its name. -/
theorem operator?_name (s : Symbol) : s = .vec ∨
    ∃ o, operator? s.name = some o ∧ ofOperator? o = some s := by
  have named := ofName?_name s
  unfold ofName? at named
  split at named
  · exact .inl (Option.some.inj named).symm
  · exact .inr (Option.bind_eq_some_iff.mp named)

theorem name_of_ofName? {name : String} {s : Symbol} (h : ofName? name = some s) :
    s.name = name := by
  unfold ofName? at h
  split at h
  · cases h
    simp_all [reserved, Symbol.name]
  · obtain ⟨o, found, ofOperator⟩ := Option.bind_eq_some_iff.mp h
    have spelt : o.spelling = name := by simpa using List.find?_some found
    cases o <;> cases ofOperator <;> exact spelt

end Symbol
end Formulary
