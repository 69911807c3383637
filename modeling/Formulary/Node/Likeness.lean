import Formulary.Node

/-!
When two trees count as equal. Nodes are equal when they are of one kind with equal fields; plain
values compare as values, so that a whole number, a real and a truth value can be equal.
-/
namespace Formulary

/-- Truth values count as one and zero. -/
def Atom.integer? : Atom → Option Int
  | .bool b => some b.toInt
  | .int n => some n
  | .null | .real _ | .text _ | .emptyList => none

def Atom.like (a b : Atom) : Bool :=
  match a, b with
  | .null, .null => true
  | .emptyList, .emptyList => true
  | .text s, .text t => s == t
  | .real x, .real y => x.sameValue y
  | .real x, b => (b.integer?.map x.isInteger).getD false
  | a, .real y => (a.integer?.map y.isInteger).getD false
  | a, b => a.integer?.isSome && a.integer? == b.integer?

namespace Node

mutual

def like : Node → Node → Bool
  | .atom a, .atom b => a.like b
  | .scalarId a, .scalarId b => a == b
  | .vectorId a, .vectorId b => a == b
  | .number a, .number b => a.like b
  | .variable a, .variable b => a.like b
  | .application a b, .application c d => a.like c && b.like d
  | .vector as, .vector bs => allLike as bs
  | .singleArity o a, .singleArity p b => o == p && a.like b
  | .doubleArity o a b, .doubleArity p c d => o == p && a.like c && b.like d
  | .tripleArity o a b c, .tripleArity p d e f => o == p && a.like d && b.like e && c.like f
  | .abstraction a b, .abstraction c d => a.like c && b.like d
  | .mapAbstraction a i b, .mapAbstraction c j d => a.like c && i.like j && b.like d
  | .binding a b, .binding c d => a.like c && b.like d
  | .program as, .program bs => allLike as bs
  | _, _ => false

def allLike : List Node → List Node → Bool
  | [], [] => true
  | a :: as, b :: bs => a.like b && allLike as bs
  | _, _ => false

end

end Node
end Formulary
