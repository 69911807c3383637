import Formulary.Expression

/-!
General trees, as they are shown, compared and counted. Unlike formulas they need not be well formed:
any node may stand anywhere, and where a node belongs there may be a plain value.
-/
namespace Formulary

/-- A value that is no node. -/
inductive Atom where
  | null
  | bool (b : Bool)
  | int (n : Int)
  | real (x : Binary64)
  | text (s : String)
  | emptyList
deriving DecidableEq, Repr, Inhabited

inductive Node where
  | atom (a : Atom)
  | scalarId (name : String)
  | vectorId (name : String)
  | number (value : Atom)
  | variable (identifier : Node)
  | application (callee argument : Node)
  | vector (items : List Node)
  | singleArity (op : Operator) (operand : Node)
  | doubleArity (op : Operator) (left right : Node)
  | tripleArity (op : Operator) (first second third : Node)
  | abstraction (parameter body : Node)
  | mapAbstraction (parameter : Node) (indexName : Atom) (body : Node)
  | binding (target value : Node)
  | program (statements : List Node)
deriving Repr, Inhabited

/-- The kind of a node or plain value, under which it is shown. -/
def Node.kind : Node → String
  | .atom .null => "NoneType"
  | .atom (.bool _) => "bool"
  | .atom (.int _) => "int"
  | .atom (.real _) => "float"
  | .atom (.text _) => "str"
  | .atom .emptyList => "list"
  | .scalarId _ => "ScalarId"
  | .vectorId _ => "VectorId"
  | .number _ => "Number"
  | .variable _ => "Variable"
  | .application _ _ => "Application"
  | .vector _ => "Vector"
  | .singleArity _ _ => "SingleArity"
  | .doubleArity _ _ _ => "DoubleArity"
  | .tripleArity _ _ _ _ => "TripleArity"
  | .abstraction _ _ => "Abstraction"
  | .mapAbstraction _ _ _ => "MapAbstraction"
  | .binding _ _ => "Binding"
  | .program _ => "Program"

def letter (c : Char) : String := String.ofList [c]

def Identifier.toNode : Identifier → Node
  | .scalar c => .scalarId (letter c)
  | .vector c => .vectorId (letter c)

def scalarNode (c : Char) : Node := .variable (.scalarId (letter c))

mutual

def Expression.toNode : Expression → Node
  | .number x => .number (.real x)
  | .variable id => .variable id.toNode
  | .call f e => .application (scalarNode f) e.toNode
  | .vector a b es => .vector (a.toNode :: b.toNode :: Expression.toNodes es)
  | .sign s a b => .doubleArity (.sign s) a.toNode b.toNode
  | .index a b => .doubleArity .index a.toNode b.toNode
  | .unary s a => .singleArity (.unary s) a.toNode
  | .binary s a b => .doubleArity (.binary s) a.toNode b.toNode
  | .ternary s a b c => .tripleArity (.ternary s) a.toNode b.toNode c.toNode
  | .sum id a b c => .tripleArity .sum (.binding id.toNode a.toNode) b.toNode c.toNode

def Expression.toNodes : List Expression → List Node
  | [] => []
  | e :: es => e.toNode :: Expression.toNodes es

end

theorem Expression.toNodes_eq_map (es : List Expression) :
    Expression.toNodes es = es.map Expression.toNode := by
  induction es with
  | nil => rfl
  | cons e es ih => simp [Expression.toNodes, ih]

/-- A declaration assigns its body to the name; parameters are bound around the body. -/
def Statement.toNode : Statement → Node
  | .expression e => e.toNode
  | .declaration (.name id) e => .doubleArity .assignment (.variable id.toNode) e.toNode
  | .declaration (.applied f p) e =>
    .doubleArity .assignment (scalarNode f) (.abstraction p.toNode e.toNode)
  | .declaration (.mapped f p i) e =>
    .doubleArity .assignment (scalarNode f)
      (.mapAbstraction (.vectorId (letter p)) (.text (letter i)) e.toNode)

def Sheet.toNode (s : Sheet) : Node := .program (s.map Statement.toNode)

end Formulary
