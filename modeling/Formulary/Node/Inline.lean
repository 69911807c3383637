import Formulary.Node
import Formulary.Number.Notation
import Formulary.Text.Quoted

/-!
Trees on one line: every node is its kind with all its fields by name in parentheses.
-/
namespace Formulary

def boolText (b : Bool) : String := if b then "True" else "False"

/-- A plain value as it is written inside a tree. -/
def Atom.inline : Atom → String
  | .null => "None"
  | .bool b => boolText b
  | .int n => toString n
  | .real x => x.text
  | .text s => quoted s
  | .emptyList => "[]"

def Operator.inline (o : Operator) : String :=
  "<Operator." ++ o.name ++ ": " ++ quoted o.spelling ++ ">"

namespace Node

mutual

/-- The pieces of a node's text, put before the pieces that follow it. -/
def inlineOnto (n : Node) (rest : List String) : List String :=
  match n with
  | .atom a => a.inline :: rest
  | .scalarId name => "ScalarId(name=" :: quoted name :: ")" :: rest
  | .vectorId name => "VectorId(name=" :: quoted name :: ")" :: rest
  | .number value => "Number(value=" :: value.inline :: ")" :: rest
  | .variable id => "Variable(identifier=" :: id.inlineOnto (")" :: rest)
  | .application f x =>
    "Application(callee=" :: f.inlineOnto (", argument=" :: x.inlineOnto (")" :: rest))
  | .vector items => "Vector(items=" :: tupleOnto items (")" :: rest)
  | .singleArity o x =>
    "SingleArity(op=" :: o.inline :: ", operand=" :: x.inlineOnto (")" :: rest)
  | .doubleArity o x y =>
    "DoubleArity(op=" :: o.inline :: ", left=" :: x.inlineOnto (", right=" :: y.inlineOnto
      (")" :: rest))
  | .tripleArity o x y z =>
    "TripleArity(op=" :: o.inline :: ", first=" :: x.inlineOnto (", second=" :: y.inlineOnto
      (", third=" :: z.inlineOnto (")" :: rest)))
  | .abstraction p b => "Abstraction(parameter=" :: p.inlineOnto (", body=" :: b.inlineOnto
      (")" :: rest))
  | .mapAbstraction p i b =>
    "MapAbstraction(parameter=" :: p.inlineOnto (", index_name=" :: i.inline :: ", body=" ::
      b.inlineOnto (")" :: rest))
  | .binding t v => "Binding(variable=" :: t.inlineOnto (", value=" :: v.inlineOnto (")" :: rest))
  | .program ss => "Program(statements=" :: tupleOnto ss (")" :: rest)

/-- A tuple of one item keeps a comma behind it. -/
def tupleOnto (ns : List Node) (rest : List String) : List String :=
  match ns with
  | [] => "()" :: rest
  | [n] => "(" :: n.inlineOnto (",)" :: rest)
  | n :: m :: ns => "(" :: n.inlineOnto (", " :: m.inlineOnto (itemsOnto ns (")" :: rest)))

def itemsOnto (ns : List Node) (rest : List String) : List String :=
  match ns with
  | [] => rest
  | n :: ns => ", " :: n.inlineOnto (itemsOnto ns rest)

end

def inline (n : Node) : String := String.join (n.inlineOnto [])

end Node
end Formulary
