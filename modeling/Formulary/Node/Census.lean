import Formulary.Node.Outline

/-!
Counts over a tree: how many nodes its outline has, how deep it goes, and how many there are of each
sort.
-/
namespace Formulary

structure Census where
  nodes : Nat
  depth : Nat
  counts : List (String × Nat)
deriving Repr, DecidableEq

/-- One more of a sort; sorts keep the order of their first node. -/
def countOne (sort : String) : List (String × Nat) → List (String × Nat)
  | [] => [(sort, 1)]
  | (s, n) :: rest => if s = sort then (s, n + 1) :: rest else (s, n) :: countOne sort rest

namespace Node

/-- Nodes with operands are told apart by their operator. -/
def sort (n : Node) : String :=
  match n with
  | .singleArity o _ | .doubleArity o _ _ | .tripleArity o _ _ _ => n.kind ++ " " ++ o.name
  | _ => n.kind

def census (n : Node) : Except ShowFault Census := do
  let entries := n.preorder
  let _ ← entries.mapM (·.2.label)
  return {
    nodes := entries.length
    depth := entries.foldl (fun d entry => max d (entry.1 + 1)) 0
    counts := entries.foldl (fun counts entry => countOne entry.2.sort counts) [] }

end Node
end Formulary
