import Formulary.Node.Inline

/-!
Trees as outlines: a line for every node, children below their node and two spaces further in. The
nodes are listed in pre-order, and the first that cannot be shown decides the fault.
-/
namespace Formulary

inductive ShowFault where
  | notShown (n : Node)
  | notIdentifier (n : Node)

def ShowFault.message : ShowFault → String
  | .notShown n => "cannot format " ++ n.kind
  | .notIdentifier n => "not an identifier: " ++ n.inline

namespace Node

def identifierText : Node → Except ShowFault String
  | .scalarId name => .ok name
  | .vectorId name => .ok ("\\vec\x7b" ++ name ++ "\x7d")
  | n => .error (.notIdentifier n)

/-- A plain value outside the tree's own notation: text stands for itself. -/
def atomText : Atom → String
  | .text s => s
  | a => a.inline

/-- What an outline says of a node, apart from its children. -/
def label (n : Node) : Except ShowFault String :=
  match n with
  | .program ss => .ok (n.kind ++ " (" ++ toString ss.length ++ " statements)")
  | .vector items => .ok (n.kind ++ " (" ++ toString items.length ++ " items)")
  | .number value => .ok (n.kind ++ " " ++ value.inline)
  | .application _ _ => .ok n.kind
  | .singleArity o _ | .doubleArity o _ _ | .tripleArity o _ _ _ => .ok (n.kind ++ " " ++ o.name)
  | .variable id | .abstraction id _ | .binding id _ => do
    return n.kind ++ " " ++ (← id.identifierText)
  | .mapAbstraction p i _ => do
    return n.kind ++ " " ++ (← p.identifierText) ++ " index " ++ atomText i
  | .atom _ | .scalarId _ | .vectorId _ => .error (.notShown n)

mutual

/-- The nodes of an outline with their depths in pre-order, before those that follow. Identifiers
belong to their node's own line. -/
def preorderOnto (depth : Nat) (n : Node) (rest : List (Nat × Node)) : List (Nat × Node) :=
  (depth, n) :: match n with
    | .application x y | .doubleArity _ x y =>
      x.preorderOnto (depth + 1) (y.preorderOnto (depth + 1) rest)
    | .tripleArity _ x y z =>
      x.preorderOnto (depth + 1) (y.preorderOnto (depth + 1) (z.preorderOnto (depth + 1) rest))
    | .singleArity _ x | .abstraction _ x | .mapAbstraction _ _ x | .binding _ x =>
      x.preorderOnto (depth + 1) rest
    | .vector ns | .program ns => preorderAllOnto (depth + 1) ns rest
    | .atom _ | .scalarId _ | .vectorId _ | .number _ | .variable _ => rest

def preorderAllOnto (depth : Nat) (ns : List Node) (rest : List (Nat × Node)) :
    List (Nat × Node) :=
  match ns with
  | [] => rest
  | n :: ns => n.preorderOnto depth (preorderAllOnto depth ns rest)

end

def preorder (n : Node) : List (Nat × Node) := n.preorderOnto 0 []

def indent (depth : Nat) : String := String.ofList (List.replicate (2 * depth) ' ')

def outlineLine (entry : Nat × Node) : Except ShowFault String :=
  entry.2.label.map (indent entry.1 ++ ·)

def outline (n : Node) : Except ShowFault String :=
  (n.preorder.mapM outlineLine).map ("\n".intercalate ·)

end Node
end Formulary
