import Formulary.Proofs.Outlines

/-! Outlines by recursion. The outline of a node is its own line over the outlines of its children, each
line of them two spaces further in. A node that cannot be shown leaves no outline, and the first one in
pre-order decides the fault. Nothing is asked of the tree here: what is no node may stand anywhere. -/
namespace Formulary

/-! Lists of results. -/

section
variable {f : α → Except ε β} {as : List α} {bs : List β}

end

namespace Node

variable {m n : Node}

/-! Children. -/

/-- The nodes one level below in an outline. Identifiers are shown with the node that they belong to. -/
def children : Node → List Node
  | .application a b | .doubleArity _ a b => [a, b]
  | .tripleArity _ a b c => [a, b, c]
  | .singleArity _ a | .abstraction _ a | .mapAbstraction _ _ a | .binding _ a => [a]
  | .vector ns | .program ns => ns
  | .atom _ | .scalarId _ | .vectorId _ | .number _ | .variable _ => []

theorem sizeOf_lt_of_mem_children (member : m ∈ n.children) : sizeOf m < sizeOf n := by
  cases n with
  | vector ns | program ns =>
    have inside := List.sizeOf_lt_of_mem (show m ∈ ns from member)
    simp only [vector.sizeOf_spec, program.sizeOf_spec]
    omega
  | atom | scalarId | vectorId | number | «variable» => cases member
  | _ =>
    simp [children] at member
    rcases member with rfl | rfl | rfl <;> simp <;> omega

/-- A node and all that is below it, in pre-order. -/
def reached (n : Node) : List Node := n :: n.children.attach.flatMap fun m => m.val.reached
termination_by sizeOf n
decreasing_by exact sizeOf_lt_of_mem_children m.property

/-- Plain values and bare identifiers have no line of their own. -/
def isOutlined : Node → Bool
  | .atom _ | .scalarId _ | .vectorId _ => false
  | _ => true

def isIdentifier : Node → Bool
  | .scalarId _ | .vectorId _ => true
  | _ => false

/-- What stands where the node has its identifier. -/
def identifier? : Node → Option Node
  | .variable i | .abstraction i _ | .mapAbstraction i _ _ | .binding i _ => some i
  | _ => none

structure Formattable (n : Node) : Prop where
  outlined : n.isOutlined = true
  identifier : ∀ i ∈ n.identifier?, i.isIdentifier = true

instance (n : Node) : Decidable n.Formattable :=
  decidable_of_iff (n.isOutlined = true ∧ n.identifier?.all isIdentifier = true) <| by
    rw [Option.all_eq_true]
    exact ⟨fun held => ⟨held.1, held.2⟩, fun held => ⟨held.outlined, held.identifier⟩⟩

theorem identifierText_ok_iff : (∃ text, n.identifierText = .ok text) ↔ n.isIdentifier = true := by
  cases n with
  | scalarId | vectorId => exact iff_of_true ⟨_, rfl⟩ rfl
  | _ => exact iff_of_false nofun nofun

theorem Formattable.labelled (held : n.Formattable) : n.Labelled := by
  have named {i : Node} (own : n.identifier? = some i) : ∃ text, i.identifierText = .ok text :=
    identifierText_ok_iff.mpr (held.identifier i own)
  cases n with
  | atom | scalarId | vectorId => cases held.outlined
  | «variable» | abstraction | binding | mapAbstraction =>
    obtain ⟨text, ok⟩ := named rfl
    rw [Labelled, label, ok]
    exact ⟨_, rfl⟩
  | _ => exact ⟨_, rfl⟩

def ownName : Node → List String
  | .scalarId s | .vectorId s => [s]
  | _ => []

/-- Names on the node's line; they are shown as they are. -/
def names : Node → List String
  | .variable i | .abstraction i _ | .binding i _ => i.ownName
  | .mapAbstraction p (.text s) _ => s :: p.ownName
  | .mapAbstraction p _ _ => p.ownName
  | _ => []

end Node

end Formulary
