import Formulary.Node.Likeness
import Formulary.Proofs.Decimals
import Formulary.Proofs.Display
import Formulary.Proofs.Printing

/-! Outlines read back. The line of a node names its kind, its fields and, where it can vary, the number of
its children; so the lines of an outline in their order are a prefix notation, from which the tree can be
told. -/
namespace Formulary

/-! Captions. -/

/-- A node without its children. -/
inductive Caption where
  | number (x : Binary64)
  | variable (i : Identifier)
  | application
  | vector (items : Nat)
  | singleArity (op : Operator)
  | doubleArity (op : Operator)
  | tripleArity (op : Operator)
  | abstraction (parameter : Identifier)
  | mapAbstraction (parameter index : Char)
  | binding (target : Identifier)
  | program (statements : Nat)

namespace Caption

/-- The caption of a node and its children. -/
inductive Of : Caption → Node → List Node → Prop where
  | number : Of (.number x) (.number (.real x)) []
  | variable : Of (.variable i) (.variable i.toNode) []
  | application : Of .application (.application f a) [f, a]
  | vector : ns.length = k → Of (.vector k) (.vector ns) ns
  | singleArity : Of (.singleArity op) (.singleArity op a) [a]
  | doubleArity : Of (.doubleArity op) (.doubleArity op a b) [a, b]
  | tripleArity : Of (.tripleArity op) (.tripleArity op a b c) [a, b, c]
  | abstraction : Of (.abstraction p) (.abstraction p.toNode a) [a]
  | mapAbstraction : Of (.mapAbstraction p i)
      (.mapAbstraction (.vectorId (letter p)) (.text (letter i)) a) [a]
  | binding : Of (.binding i) (.binding i.toNode a) [a]
  | program : ns.length = k → Of (.program k) (.program ns) ns

def kind : Caption → String
  | .number _ => "Number"
  | .variable _ => "Variable"
  | .application => "Application"
  | .vector _ => "Vector"
  | .singleArity _ => "SingleArity"
  | .doubleArity _ => "DoubleArity"
  | .tripleArity _ => "TripleArity"
  | .abstraction _ => "Abstraction"
  | .mapAbstraction _ _ => "MapAbstraction"
  | .binding _ => "Binding"
  | .program _ => "Program"

/-- What stands behind the kind. -/
def details : Caption → String
  | .number x => " " ++ x.text
  | .variable i | .abstraction i | .binding i => " " ++ String.ofList i.text
  | .application => ""
  | .vector n => " (" ++ toString n ++ " items)"
  | .singleArity op | .doubleArity op | .tripleArity op => " " ++ op.name
  | .mapAbstraction p i => " " ++ String.ofList (Identifier.vector p).text ++ " index " ++ letter i
  | .program n => " (" ++ toString n ++ " statements)"

variable {c : Caption} {n m : Node} {ns ms : List Node}

namespace Of

theorem unique (first : c.Of n ns) (second : c.Of m ns) : n = m := by
  cases first <;> cases second <;> rfl

/-- The caption says how many children there are. -/
theorem length_eq (first : c.Of n ns) (second : c.Of m ms) : ns.length = ms.length := by
  cases first with
  | vector count =>
    cases second with
    | vector count' => rw [count, count']
  | program count =>
    cases second with
    | program count' => rw [count, count']
  | _ =>
    cases second
    rfl

theorem preorder (held : c.Of n ns) (depth : Nat) (rest : List (Nat × Node)) :
    n.preorderOnto depth rest = (depth, n) :: Node.preorderAllOnto (depth + 1) ns rest := by
  cases held <;> rfl

theorem identifierText_toNode (i : Identifier) : i.toNode.identifierText = .ok (String.ofList i.text) := by
  cases i with
  | scalar c => rfl
  | vector c =>
    have text : "\\vec\x7b" ++ letter c ++ "\x7d" = String.ofList (Identifier.vector c).text := by
      apply String.toList_injective
      simp [letter, Identifier.text, Lexeme.text, Symbol.name]
    exact congrArg Except.ok text

theorem label (held : c.Of n ns) : n.label = .ok (c.kind ++ c.details) := by
  cases held with
  | application => rfl
  | number | singleArity | doubleArity | tripleArity =>
    simp only [Node.label, Node.kind, kind, details, Atom.inline, String.append_assoc]
  | vector count | program count =>
    simp only [Node.label, Node.kind, kind, details, count, String.append_assoc]
  | «variable» | abstraction | binding =>
    simp only [Node.label, identifierText_toNode]
    exact congrArg Except.ok String.append_assoc
  | mapAbstraction =>
    have parameter (p : Char) : (Node.vectorId (letter p)).identifierText = _ :=
      identifierText_toNode (.vector p)
    simp only [Node.label, parameter, Node.atomText, Node.kind, kind, details, String.append_assoc]
    rfl

end Of

/-! A caption is told by its line. -/

/-- Numbers have no sign, and names are letters. -/
def Legible : Caption → Prop
  | .number x => x.Writable
  | .variable i | .abstraction i | .binding i => i.WellFormed
  | .mapAbstraction p i => isLetter p = true ∧ isLetter i = true
  | .application | .vector _ | .singleArity _ | .doubleArity _ | .tripleArity _ | .program _ => True

/-- A kind is one word. -/
theorem split_text {d : Caption} (same : c.kind ++ c.details = d.kind ++ d.details) :
    c.kind = d.kind ∧ c.details = d.details := by
  have word (c : Caption) : ∀ a ∈ c.kind.toList, (a != ' ') = true := by
    cases c <;> simp [kind]
  have behind (c : Caption) : ∀ a ∈ c.details.toList.head?, (a != ' ') = false := by
    cases c <;> simp [details]
  have chars : c.kind.toList ++ c.details.toList = d.kind.toList ++ d.details.toList := by
    simpa using congrArg String.toList same
  constructor
  · apply String.toList_injective
    rw [← takeWhile_append_stop (word c) (behind c), chars, takeWhile_append_stop (word d) (behind d)]
  · apply String.toList_injective
    rw [← dropWhile_append_stop (word c) (behind c), chars, dropWhile_append_stop (word d) (behind d)]

theorem identifier_inj {i j : Identifier} (same : " " ++ String.ofList i.text = " " ++ String.ofList j.text) :
    i = j := by
  have text : i.text = j.text := by simpa using congrArg String.toList same
  cases i <;> cases j <;> simp_all [Identifier.text, Lexeme.text]

theorem operator_inj {op op' : Operator} (same : " " ++ op.name = " " ++ op'.name) : op = op' := by
  have found (o : Operator) : Operator.ofName? o.name = some o := by
    rcases o with _ | _ | s | _ | s | s | s <;> try cases s
    all_goals decide
  have name : op.name = op'.name := by
    apply String.toList_injective
    simpa using congrArg String.toList same
  exact Option.some.inj ((found op).symm.trans (name ▸ found op'))

theorem count_inj {k l : Nat} {unit : String}
    (same : " (" ++ toString k ++ unit = " (" ++ toString l ++ unit) : k = l := by
  have digits : Nat.toDigits 10 k = Nat.toDigits 10 l := by
    simpa [Nat.toString_eq_ofList_toDigits] using congrArg String.toList same
  have value := congrArg (Nat.ofDigitChars 10 · 0) digits
  simpa [Nat.ofDigitChars_ten_toDigits] using value

theorem eq_of_text {d : Caption} (held : c.Legible) (held' : d.Legible)
    (same : c.kind ++ c.details = d.kind ++ d.details) : c = d := by
  obtain ⟨kind, details⟩ := split_text same
  cases c with
  | number x =>
    cases d with
    | number y =>
      have text : x.text = y.text := by
        apply String.toList_injective
        simpa [Caption.details] using congrArg String.toList details
      rw [Binary64.text_inj held held' text]
    | _ => simp [Caption.kind] at kind
  | «variable» i =>
    cases d with
    | «variable» j => rw [identifier_inj details]
    | _ => simp [Caption.kind] at kind
  | application =>
    cases d with
    | application => rfl
    | _ => simp [Caption.kind] at kind
  | vector k =>
    cases d with
    | vector l => rw [count_inj details]
    | _ => simp [Caption.kind] at kind
  | singleArity op =>
    cases d with
    | singleArity op' => rw [operator_inj details]
    | _ => simp [Caption.kind] at kind
  | doubleArity op =>
    cases d with
    | doubleArity op' => rw [operator_inj details]
    | _ => simp [Caption.kind] at kind
  | tripleArity op =>
    cases d with
    | tripleArity op' => rw [operator_inj details]
    | _ => simp [Caption.kind] at kind
  | abstraction p =>
    cases d with
    | abstraction q => rw [identifier_inj details]
    | _ => simp [Caption.kind] at kind
  | mapAbstraction p i =>
    cases d with
    | mapAbstraction q j =>
      have chars := congrArg String.toList details
      simp [Caption.details, Identifier.text, letter] at chars
      rw [chars.1, chars.2]
    | _ => simp [Caption.kind] at kind
  | binding i =>
    cases d with
    | binding j => rw [identifier_inj details]
    | _ => simp [Caption.kind] at kind
  | program k =>
    cases d with
    | program l => rw [count_inj details]
    | _ => simp [Caption.kind] at kind

theorem oneLine_letter {a : Char} (held : isLetter a = true) : OneLine (letter a) := by
  rw [letter, oneLine_ofList]
  intro member
  obtain rfl := List.mem_singleton.mp member
  cases held.symm.trans parts_newline.isLetter

theorem oneLine_identifier {i : Identifier} (held : i.WellFormed) : OneLine (String.ofList i.text) := by
  cases i with
  | scalar a => exact oneLine_letter held
  | vector a =>
    have name := oneLine_letter held
    rw [letter, oneLine_ofList] at name
    rw [oneLine_ofList]
    simpa [Identifier.text, Lexeme.text, Symbol.name] using name

theorem Legible.oneLine (held : c.Legible) : OneLine (c.kind ++ c.details) := by
  have kind : OneLine c.kind := by
    cases c <;> simp [OneLine, kind]
  refine kind.append ?_
  cases c with
  | number x => exact OneLine.append (by decide) (oneLine_number x)
  | «variable» | abstraction | binding => exact OneLine.append (by decide) (oneLine_identifier held)
  | application => decide
  | vector n | program n => exact ((OneLine.append (by decide) (oneLine_toString n)).append (by decide))
  | singleArity op | doubleArity op | tripleArity op => exact OneLine.append (by decide) op.oneLine_name
  | mapAbstraction p i =>
    have parameter : OneLine (String.ofList (Identifier.vector p).text) := oneLine_identifier held.1
    exact ((OneLine.append (by decide) parameter).append (by decide)).append (oneLine_letter held.2)

end Caption

/-! Trees of captions. -/

namespace Node

/-- A tree in which every node has a legible caption. -/
inductive Legible : Node → Prop where
  | intro : Caption.Of c n ns → c.Legible → (∀ m ∈ ns, Legible m) → Legible n

/-- The lines of the nodes of an outline. -/
def showLines (entries : List (Nat × Node)) : Except ShowFault (List String) := entries.mapM outlineLine

theorem showLines_of {c : Caption} {n : Node} {ns : List Node} (held : c.Of n ns) (depth : Nat)
    (rest : List (Nat × Node)) : showLines (n.preorderOnto depth rest) =
      (showLines (preorderAllOnto (depth + 1) ns rest)).map ((indent depth ++ (c.kind ++ c.details)) :: ·) := by
  have line : outlineLine (depth, n) = .ok (indent depth ++ (c.kind ++ c.details)) := by
    rw [outlineLine, held.label]
    rfl
  rw [held.preorder, showLines, List.mapM_cons, line]
  rfl

variable {m n : Node}

/-- A tree is told by its lines, whatever follows them. -/
def Told (m : Node) : Prop :=
  ∀ {n depth es fs lines}, n.Legible → showLines (m.preorderOnto depth es) = .ok lines →
    showLines (n.preorderOnto depth fs) = .ok lines →
      m = n ∧ ∃ rest, showLines es = .ok rest ∧ showLines fs = .ok rest

theorem Told.all {ms ns : List Node} (told : ∀ m ∈ ms, Told m) (legible : ∀ n ∈ ns, n.Legible)
    (count : ms.length = ns.length) (left : showLines (preorderAllOnto depth ms es) = .ok lines)
    (right : showLines (preorderAllOnto depth ns fs) = .ok lines) :
    ms = ns ∧ ∃ rest, showLines es = .ok rest ∧ showLines fs = .ok rest := by
  induction ms generalizing ns lines with
  | nil =>
    obtain rfl := List.length_eq_zero_iff.mp count.symm
    exact ⟨rfl, lines, left, right⟩
  | cons m ms ih =>
    obtain ⟨n, ns, rfl⟩ := List.exists_cons_of_length_eq_add_one count.symm
    obtain ⟨first, others⟩ := List.forall_mem_cons.mp told
    obtain ⟨firstLegible, othersLegible⟩ := List.forall_mem_cons.mp legible
    obtain ⟨rfl, rest, left, right⟩ := first firstLegible left right
    obtain ⟨rfl, behind⟩ := ih others othersLegible (by simpa using count) left right
    exact ⟨rfl, behind⟩

theorem Legible.told (held : m.Legible) : Told m := by
  induction held with
  | @intro c m ms caption fine _ children =>
    rintro n depth es fs lines ⟨caption', fine', children'⟩ left right
    rw [showLines_of caption, map_eq_ok] at left
    rw [showLines_of caption', map_eq_ok] at right
    obtain ⟨below, left, same⟩ := left
    obtain ⟨_, right, rfl⟩ := right
    obtain ⟨line, rfl⟩ := List.cons.inj same
    have text := (String.append_right_inj _).mp line
    obtain rfl := Caption.eq_of_text fine fine' text
    obtain ⟨rfl, behind⟩ := Told.all children children' (caption.length_eq caption') left right
    exact ⟨caption.unique caption', behind⟩

/-! Outlines of legible trees. -/

theorem oneLine_indent (depth : Nat) : OneLine (indent depth) := by
  rw [indent, oneLine_ofList]
  intro member
  cases List.eq_of_mem_replicate member

/-- A tree has lines, whatever follows it. -/
def Shown (m : Node) : Prop :=
  ∀ depth es, (∃ lines, showLines es = .ok lines ∧ OneLines lines) →
    ∃ line lines, showLines (m.preorderOnto depth es) = .ok (line :: lines) ∧ OneLines (line :: lines)

theorem Shown.all {ms : List Node} (shown : ∀ m ∈ ms, Shown m) (depth : Nat)
    (behind : ∃ lines, showLines es = .ok lines ∧ OneLines lines) :
    ∃ lines, showLines (preorderAllOnto depth ms es) = .ok lines ∧ OneLines lines := by
  induction ms with
  | nil => exact behind
  | cons m ms ih =>
    obtain ⟨first, others⟩ := List.forall_mem_cons.mp shown
    obtain ⟨line, lines, below⟩ := first depth _ (ih others)
    exact ⟨line :: lines, below⟩

theorem Legible.shown (held : m.Legible) : Shown m := by
  induction held with
  | @intro c m ms caption fine _ children =>
    intro depth es behind
    obtain ⟨lines, below, plain⟩ := Shown.all children (depth + 1) behind
    refine ⟨_, lines, ?_, plain.cons ((oneLine_indent depth).append fine.oneLine)⟩
    rw [showLines_of caption, below]
    rfl

/-- Outlines are cut into their lines. -/
theorem Legible.outline_lines (held : m.Legible) : ∃ lines, showLines m.preorder = .ok lines ∧
    m.outline = .ok ("\n".intercalate lines) ∧
      ("\n".intercalate lines).toList.splitOn '\n' = lines.map String.toList := by
  obtain ⟨line, lines, shown, plain⟩ := held.shown 0 [] ⟨[], rfl, nofun⟩
  exact ⟨line :: lines, shown, congrArg (Except.map _) shown, plain.cut (List.cons_ne_nil _ _)⟩

theorem Legible.outline_inj (left : m.Legible) (right : n.Legible) (same : m.outline = n.outline) : m = n := by
  obtain ⟨lines, shown, outline, cut⟩ := left.outline_lines
  obtain ⟨lines', shown', outline', cut'⟩ := right.outline_lines
  rw [outline, outline'] at same
  rw [Except.ok.inj same, cut'] at cut
  obtain rfl := (List.map_inj_right fun _ _ => String.toList_injective).mp cut
  exact (left.told right shown shown').1

/-! Equal trees. -/

theorem sameValue_iff {x y : Binary64} (left : x.Writable) (right : y.Writable) :
    x.sameValue y = true ↔ x = y := by
  cases left <;> cases right <;> simp [Binary64.sameValue]

theorem like_identifier_iff (i j : Identifier) : i.toNode.like j.toNode = true ↔ i.toNode = j.toNode := by
  cases i <;> cases j <;> simp [Identifier.toNode, Node.like]

/-- A tree counts as equal to itself and to no other. -/
def Exact (m : Node) : Prop := ∀ {n}, n.Legible → (m.like n = true ↔ m = n)

theorem Exact.all {ms ns : List Node} (exact : ∀ m ∈ ms, Exact m) (legible : ∀ n ∈ ns, n.Legible) :
    allLike ms ns = true ↔ ms = ns := by
  induction ms generalizing ns with
  | nil => cases ns <;> simp [allLike]
  | cons m ms ih =>
    obtain ⟨first, others⟩ := List.forall_mem_cons.mp exact
    cases ns with
    | nil => simp [allLike]
    | cons n ns =>
      obtain ⟨firstLegible, othersLegible⟩ := List.forall_mem_cons.mp legible
      rw [allLike, Bool.and_eq_true, first firstLegible, ih others othersLegible, List.cons.injEq]

theorem Legible.exact (held : m.Legible) : Exact m := by
  induction held with
  | @intro c m ms caption fine _ children =>
    rintro n ⟨caption', fine', children'⟩
    have below := Exact.all children children'
    cases caption with
    | number =>
      cases caption' with
      | number => simpa [like, Atom.like] using sameValue_iff fine fine'
      | _ => simp [like]
    | «variable» =>
      cases caption' with
      | «variable» => simpa [like] using like_identifier_iff _ _
      | _ => simp [like]
    | application =>
      cases caption' with
      | application => simpa [like, allLike] using below
      | _ => simp [like]
    | vector =>
      cases caption' with
      | vector => simpa [like] using below
      | _ => simp [like]
    | singleArity =>
      cases caption' with
      | singleArity => simpa [like, allLike] using and_congr_right fun _ => below
      | _ => simp [like]
    | doubleArity =>
      cases caption' with
      | doubleArity => simpa [like, allLike, and_assoc] using and_congr_right fun _ => below
      | _ => simp [like]
    | tripleArity =>
      cases caption' with
      | tripleArity => simpa [like, allLike, and_assoc] using and_congr_right fun _ => below
      | _ => simp [like]
    | abstraction =>
      cases caption' with
      | abstraction => simpa [like, allLike] using and_congr (like_identifier_iff _ _) below
      | _ => simp [like]
    | mapAbstraction =>
      cases caption' with
      | mapAbstraction =>
        simpa [like, allLike, Atom.like, and_assoc] using and_congr_right fun _ => and_congr_right fun _ => below
      | _ => simp [like]
    | binding =>
      cases caption' with
      | binding => simpa [like, allLike] using and_congr (like_identifier_iff _ _) below
      | _ => simp [like]
    | program =>
      cases caption' with
      | program => simpa [like] using below
      | _ => simp [like]

/-! Trees that are read. -/

section
variable {c : Caption} {a b d : Node}

theorem Legible.one (caption : c.Of n [a]) (fine : c.Legible) (first : a.Legible) : n.Legible :=
  .intro caption fine (List.forall_mem_singleton.mpr first)

theorem Legible.two (caption : c.Of n [a, b]) (fine : c.Legible) (first : a.Legible) (second : b.Legible) :
    n.Legible :=
  .intro caption fine (List.forall_mem_cons.mpr ⟨first, List.forall_mem_singleton.mpr second⟩)

theorem Legible.three (caption : c.Of n [a, b, d]) (fine : c.Legible) (first : a.Legible) (second : b.Legible)
    (third : d.Legible) : n.Legible :=
  .intro caption fine
    (List.forall_mem_cons.mpr ⟨first, List.forall_mem_cons.mpr ⟨second, List.forall_mem_singleton.mpr third⟩⟩)

theorem legible_variable {i : Identifier} (held : i.WellFormed) : (Node.variable i.toNode).Legible :=
  .intro (c := .variable i) .variable held nofun

end

end Node

theorem Expression.WellFormed.legible {e : Expression} (held : e.WellFormed Binary64.Writable) :
    e.toNode.Legible := by
  induction held with
  | number writable => exact .intro .number writable nofun
  | identifier id => exact Node.legible_variable id
  | @call f _ letter _ argument =>
    have callee := Node.legible_variable (i := .scalar f) letter
    exact .two .application trivial callee argument
  | vector _ _ _ first second others =>
    refine .intro (.vector rfl) trivial (List.forall_mem_cons.mpr ⟨first, List.forall_mem_cons.mpr ⟨second, ?_⟩⟩)
    rw [Expression.toNodes_eq_map]
    intro n member
    obtain ⟨e, found, rfl⟩ := List.mem_map.mp member
    exact others e found
  | sign _ _ left right => exact .two .doubleArity trivial left right
  | index _ _ base subscript => exact .two .doubleArity trivial base subscript
  | unary _ operand => exact .one .singleArity trivial operand
  | binary _ _ left right => exact .two .doubleArity trivial left right
  | ternary _ _ _ first second third => exact .three .tripleArity trivial first second third
  | @sum _ _ _ i id _ _ _ start bound summand =>
    have opening : (Node.binding i.toNode _).Legible := .one (c := .binding i) .binding id start
    exact .three .tripleArity trivial opening bound summand

theorem Statement.WellFormed.legible {s : Statement} (held : s.WellFormed Binary64.Writable) :
    s.toNode.Legible := by
  cases s with
  | expression e => exact Expression.WellFormed.legible held
  | declaration head body =>
    obtain ⟨names, body⟩ := held
    cases head with
    | name i => exact .two .doubleArity trivial (Node.legible_variable names) body.legible
    | applied f p =>
      have callee := Node.legible_variable (i := .scalar f) names.1
      exact .two .doubleArity trivial callee (.one (c := .abstraction p) .abstraction names.2 body.legible)
    | mapped f p i =>
      have callee := Node.legible_variable (i := .scalar f) names.1
      exact .two .doubleArity trivial callee
        (.one (c := .mapAbstraction p i) .mapAbstraction names.2 body.legible)

/-- The trees of the results of reading. -/
inductive Parsed : Node → Prop where
  | sheet (text : List Char) : parseSheet text = .ok sheet → Parsed (Sheet.toNode sheet)
  | statement (text : List Char) : parseStatement text = .ok s → Parsed s.toNode
  | expression (text : List Char) : parseExpression text = .ok e → Parsed e.toNode

theorem Parsed.legible {n : Node} (parsed : Parsed n) : n.Legible := by
  have values : ∀ whole fraction, (numberValue whole fraction).Writable := fun _ _ =>
    Binary64.ofRatio_writable _ _
  cases parsed with
  | sheet _ ok =>
    obtain ⟨ls, lexes, lines⟩ := (parseSheet_ok_iff _ _).mp ok
    have held := lines.wellFormed values fun l found => lexes.spelt l (by simp [found])
    refine .intro (.program rfl) trivial fun n member => ?_
    obtain ⟨s, found, rfl⟩ := List.mem_map.mp member
    exact (held s found).legible
  | statement _ ok =>
    obtain ⟨n, ks, m, lexes, statement⟩ := (parseStatement_ok_iff _ _).mp ok
    have held := statement.wellFormed values fun l found => lexes.spelt l (by simp [found])
    exact held.legible
  | expression _ ok =>
    obtain ⟨n, ks, m, p, lexes, whole, rfl⟩ := (parseExpression_ok_iff _ _).mp ok
    have held := whole.wellFormed values fun l found => lexes.spelt l (by simp [found])
    exact held.expr.legible

/-- The outlines of two results are the same exactly when the results are equal, so that there is a reader
of outlines. -/
theorem outline_determines_tree :
    (∀ m n, Parsed m → Parsed n → (m.outline = n.outline ↔ m.like n = true)) ∧
    ∃ read : String → Option Node, ∀ n, Parsed n → ∃ shown, n.outline = .ok shown ∧ read shown = some n := by
  constructor
  · intro m n left right
    rw [left.legible.exact right.legible]
    constructor
    · exact left.legible.outline_inj right.legible
    · rintro rfl
      rfl
  · classical
    refine ⟨fun shown => if found : ∃ n, Parsed n ∧ n.outline = .ok shown then some found.choose else none, ?_⟩
    intro n parsed
    obtain ⟨lines, -, outline, -⟩ := parsed.legible.outline_lines
    refine ⟨_, outline, ?_⟩
    have found : ∃ m, Parsed m ∧ m.outline = .ok ("\n".intercalate lines) := ⟨n, parsed, outline⟩
    obtain ⟨other, same⟩ := found.choose_spec
    have equal := other.legible.outline_inj parsed.legible (same.trans outline.symm)
    exact (dif_pos found).trans (congrArg some equal)

/-- Zeros behind the fraction are not shown, while the parameters `x` and `\vec{x}` are told apart. -/
theorem outline_determines_tree_instances :
    (Expression.number (numberValue ['2'] ['5', '0'])).toNode.outline =
      (Expression.number (numberValue ['2'] ['5'])).toNode.outline ∧
    (Statement.declaration (.applied 'f' (.scalar 'x')) (.variable (.scalar 'y'))).toNode.outline ≠
      (Statement.declaration (.applied 'f' (.vector 'x')) (.variable (.scalar 'y'))).toNode.outline ∧
    ∃ (read : String → Option Node) (shown : String),
      (Expression.unary .sqrt (.variable (.scalar 'x'))).toNode.outline = .ok shown ∧
      read shown = some (Expression.unary .sqrt (.variable (.scalar 'x'))).toNode := by
  have long : Parsed (Expression.number (numberValue ['2'] ['5', '0'])).toNode :=
    .expression ['2', '.', '5', '0'] rfl
  have short : Parsed (Expression.number (numberValue ['2'] ['5'])).toNode :=
    .expression ['2', '.', '5'] rfl
  have scalar : Parsed (Statement.declaration (.applied 'f' (.scalar 'x')) (.variable (.scalar 'y'))).toNode :=
    .statement "f(x)=y".toList rfl
  have vector : Parsed (Statement.declaration (.applied 'f' (.vector 'x')) (.variable (.scalar 'y'))).toNode :=
    .statement "f(\\vec\x7bx\x7d)=y".toList rfl
  have root : Parsed (Expression.unary .sqrt (.variable (.scalar 'x'))).toNode :=
    .expression "\\sqrt\x7bx\x7d".toList rfl
  obtain ⟨same, read, recovers⟩ := outline_determines_tree
  refine ⟨(same _ _ long short).mpr (by decide +kernel), fun equal => ?_, read, recovers _ root⟩
  have like := (same _ _ scalar vector).mp equal
  exact absurd like (by decide +kernel)

end Formulary
