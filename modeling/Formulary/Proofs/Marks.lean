import Formulary.Node
import Formulary.Proofs.Agreement
import Formulary.Proofs.RoundTrip

/-! What a tree keeps of its text. Brackets, commas and the signs of headers leave no trace in a tree; all
other lexemes are in it, and walked in order it names them in the order of the text. -/
namespace Formulary

/-- What a tree keeps of a lexeme. -/
inductive Mark where
  | number (value : Atom)
  | scalar (name : String)
  | vector (name : String)
  | operator (op : Operator)
deriving DecidableEq, Repr

/-! Marks of texts. -/

def Lexeme.mark? : Lexeme → Option Mark
  | .number whole fraction => some (.number (.real (numberValue whole fraction)))
  | .scalar c | .callee c => some (.scalar (letter c))
  | .symbol .sum => some (.operator .sum)
  | .symbol (.unary s) => some (.operator (.unary s))
  | .symbol (.binary s) => some (.operator (.binary s))
  | .symbol (.ternary s) => some (.operator (.ternary s))
  | .sign s => some (.operator (.sign s))
  | .index => some (.operator .index)
  | .equals => some (.operator .assignment)
  | .symbol .vec | .leftParen | .rightParen | .leftBrace | .rightBrace | .comma | .newline | .endMark =>
    none

/-- The marks of lexemes in their order. In the header of a sum the `=` behind the name and the `^` with a
brace behind it are no marks; a brace begins no operand, so no other `^` has one behind it. -/
def marks : List Lexeme → List Mark
  | .symbol .sum :: .leftBrace :: .scalar c :: .equals :: ls =>
    .operator .sum :: .scalar (letter c) :: marks ls
  | .symbol .sum :: .leftBrace :: .symbol .vec :: .leftBrace :: .scalar c :: .rightBrace :: .equals :: ls =>
    .operator .sum :: .vector (letter c) :: marks ls
  | .symbol .vec :: .leftBrace :: .scalar c :: .rightBrace :: ls => .vector (letter c) :: marks ls
  | .sign .power :: .leftBrace :: ls => marks ls
  | l :: ls => l.mark?.toList ++ marks ls
  | [] => []

def Piece.lexeme? : Piece → Option Lexeme
  | .lexeme l => some l
  | .unknown _ | .stray _ => none

def marksOf (text : List Char) : List Mark := marks ((scan text).filterMap (·.piece.lexeme?))

/-! Marks of trees. -/

/-- Operators that are written between their operands. -/
def Operator.isBetween : Operator → Bool
  | .assignment | .index | .sign _ => true
  | .sum | .unary _ | .binary _ | .ternary _ => false

/-- The mark of the name of an index, which is no node. -/
def Atom.marks : Atom → List Mark
  | .text s => [.scalar s]
  | _ => []

namespace Node

mutual

/-- The marks of a tree. Parameters stand before the `=` of their declaration. -/
def walk : Node → List Mark
  | .atom _ => []
  | .scalarId x => [.scalar x]
  | .vectorId x => [.vector x]
  | .number value => [.number value]
  | .variable i => i.walk
  | .application f a => f.walk ++ a.walk
  | .vector items => walkAll items
  | .singleArity op a => .operator op :: a.walk
  | .doubleArity .assignment name (.abstraction p body) =>
    name.walk ++ p.walk ++ .operator .assignment :: body.walk
  | .doubleArity .assignment name (.mapAbstraction p i body) =>
    name.walk ++ p.walk ++ .operator .index :: i.marks ++ .operator .assignment :: body.walk
  | .doubleArity op a b =>
    if op.isBetween then a.walk ++ .operator op :: b.walk else .operator op :: (a.walk ++ b.walk)
  | .tripleArity op a b c => .operator op :: (a.walk ++ b.walk ++ c.walk)
  | .abstraction p body => p.walk ++ body.walk
  | .mapAbstraction p i body => p.walk ++ i.marks ++ body.walk
  | .binding i a => i.walk ++ a.walk
  | .program statements => walkAll statements

def walkAll : List Node → List Mark
  | [] => []
  | n :: ns => n.walk ++ walkAll ns

end

theorem walkAll_eq (ns : List Node) : walkAll ns = ns.flatMap walk := by
  induction ns with
  | nil => rfl
  | cons n ns ih => rw [walkAll, ih, List.flatMap_cons]

end Node

namespace Expression

/-- The marks of the tree of an expression. -/
def walk (e : Expression) : List Mark := e.toNode.walk

variable (a b c : Expression)

@[simp] theorem walk_number (x : Binary64) : (number x).walk = [.number (.real x)] := rfl

@[simp] theorem walk_variable (i : Identifier) : (Expression.variable i).walk = i.toNode.walk := rfl

@[simp] theorem walk_call (f : Char) : (call f a).walk = .scalar (letter f) :: a.walk := rfl

@[simp] theorem walk_vector (others : List Expression) :
    (vector a b others).walk = a.walk ++ b.walk ++ others.flatMap walk := by
  simp [walk, toNode, Node.walk, Node.walkAll, Node.walkAll_eq, toNodes_eq_map, List.flatMap_map]
  rfl

@[simp] theorem walk_sign (s : InfixSign) :
    (sign s a b).walk = a.walk ++ [.operator (.sign s)] ++ b.walk := by
  simp [walk, toNode, Node.walk, Operator.isBetween]

@[simp] theorem walk_index : (index a b).walk = a.walk ++ [.operator .index] ++ b.walk := by
  simp [walk, toNode, Node.walk, Operator.isBetween]

@[simp] theorem walk_unary (s : UnarySymbol) : (unary s a).walk = .operator (.unary s) :: a.walk := rfl

@[simp] theorem walk_binary (s : BinarySymbol) :
    (binary s a b).walk = .operator (.binary s) :: a.walk ++ b.walk := by
  simp [walk, toNode, Node.walk, Operator.isBetween]

@[simp] theorem walk_ternary (s : TernarySymbol) :
    (ternary s a b c).walk = .operator (.ternary s) :: a.walk ++ b.walk ++ c.walk := by
  simp [walk, toNode, Node.walk]

@[simp] theorem walk_sum (i : Identifier) :
    (sum i a b c).walk = .operator .sum :: i.toNode.walk ++ a.walk ++ b.walk ++ c.walk := by
  simp [walk, toNode, Node.walk]

end Expression

/-! Operands that wait. -/

namespace Tiers

def waiting : Option (Expression × InfixSign) → List Mark
  | none => []
  | some (e, s) => e.walk ++ [.operator (.sign s)]

def walk (t : Tiers) : List Mark := waiting t.sums ++ waiting t.products ++ waiting t.powers

theorem walk_attach (left : Option (Expression × InfixSign)) (e : Expression) :
    (attach left e).walk = waiting left ++ e.walk := by
  cases left with
  | none => rfl
  | some operand => simp [attach, waiting]

theorem walk_power (t : Tiers) (e : Expression) : (t.power e).walk = waiting t.powers ++ e.walk :=
  walk_attach t.powers e

theorem walk_product (t : Tiers) (e : Expression) :
    (t.product e).walk = waiting t.products ++ waiting t.powers ++ e.walk := by
  rw [product, walk_attach, walk_power, List.append_assoc]

theorem walk_sum (t : Tiers) (e : Expression) : (t.sum e).walk = t.walk ++ e.walk := by
  simp only [sum, walk_attach, walk_product, walk, List.append_assoc]

/-- Whatever a sign joins, the operands stay in their order. -/
theorem walk_push (t : Tiers) (e : Expression) (s : InfixSign) :
    (t.push e s).walk = t.walk ++ e.walk ++ [.operator (.sign s)] := by
  cases s <;> simp [push, walk, waiting, walk_power, walk_product, walk_sum]

end Tiers

namespace Chain

def walk : Chain → List Mark
  | [] => []
  | (e, s) :: c => walk c ++ e.walk ++ [.operator (.sign s)]

theorem walk_tiers (c : Chain) : c.tiers.walk = c.walk := by
  induction c with
  | nil => rfl
  | cons operand c ih =>
    have tiers : tiers (operand :: c) = (tiers c).push operand.1 operand.2 := rfl
    rw [tiers, Tiers.walk_push, ih]
    rfl

theorem walk_join (c : Chain) (p : Phrase) : (c.join p).expr.walk = c.walk ++ p.expr.walk := by
  cases c with
  | nil => rfl
  | cons operand c =>
    have joined : (join (operand :: c) p).expr = (tiers (operand :: c)).sum p.expr := rfl
    rw [joined, Tiers.walk_sum, walk_tiers]

end Chain

/-! Open constructs. -/

def Application.walk : Application → List Mark
  | .unary s => [.operator (.unary s)]
  | .binary s => [.operator (.binary s)]
  | .binarySecond s a => .operator (.binary s) :: a.walk
  | .ternary s => [.operator (.ternary s)]
  | .ternarySecond s a => .operator (.ternary s) :: a.walk
  | .ternaryThird s a b => .operator (.ternary s) :: a.walk ++ b.walk

theorem Application.walk_inl {a a' : Application} (supplied : a.supply e = .inl a') :
    a'.walk = a.walk ++ e.walk := by
  cases a <;> cases supplied <;> simp [Application.walk]

theorem Application.walk_inr {a : Application} (supplied : a.supply e = .inr e') :
    e'.walk = a.walk ++ e.walk := by
  cases a <;> cases supplied <;> simp [Application.walk]

def Frame.walk : Frame → List Mark
  | .group => []
  | .second a => a.walk
  | .later a b others => a.walk ++ b.walk ++ others.reverse.flatMap Expression.walk
  | .argument f => [.scalar (letter f)]
  | .subscript base => base.expr.walk ++ [.operator .index]
  | .operand a => a.walk
  | .start i => .operator .sum :: i.toNode.walk
  | .bound i a => .operator .sum :: i.toNode.walk ++ a.walk
  | .summand i a b => .operator .sum :: i.toNode.walk ++ a.walk ++ b.walk

def Part.walk : Part → List Mark
  | .chain c => c.walk
  | .opening frame => frame.walk
  | .operand p _ | .whole p => p.expr.walk

/-! Marks of what is read. -/

/-- No operand begins with a brace. -/
def Begins (ls : List Lexeme) : Prop := ∃ l ks, ls = l :: ks ∧ l ≠ .leftBrace

theorem Begins.append (first : Begins ls) (ms : List Lexeme) : Begins (ls ++ ms) := by
  obtain ⟨l, ks, rfl, notBrace⟩ := first
  exact ⟨l, ks ++ ms, rfl, notBrace⟩

theorem Reads.begins (read : Reads ls (.whole p)) : Begins ls := by
  obtain ⟨site, q, ending, run, -⟩ := read.run (.atStart .formula []) rfl
  cases run with
  | @cons l _ _ _ _ step =>
    refine ⟨l, _, rfl, ?_⟩
    rintro rfl
    exact nomatch step 0

/-- The marks of lexemes, whatever follows them. -/
def Marked (ls : List Lexeme) (ms : List Mark) : Prop := ∀ ks, marks (ls ++ ks) = ms ++ marks ks

namespace Marked

theorem append (first : Marked ls ms) (last : Marked ks ns) : Marked (ls ++ ks) (ms ++ ns) := by
  intro rest
  rw [List.append_assoc, first, last, List.append_assoc]

/-- The signs that close a construct are no marks. -/
theorem close (opening : Marked ls ms) (whole : Marked ks ns) (closer : Marked cs []) :
    Marked (ls ++ ks ++ cs) (ms ++ ns) := by
  simpa using (opening.append whole).append closer

theorem sign (s : InfixSign) (operand : Marked ls ms) (begins : Begins ls) :
    Marked (.sign s :: ls) (.operator (.sign s) :: ms) := by
  intro rest
  obtain ⟨l, ks, rfl, notBrace⟩ := begins
  have plain : marks (.sign s :: (l :: ks ++ rest)) = .operator (.sign s) :: marks (l :: ks ++ rest) := by
    cases s with
    | power =>
      cases l with
      | leftBrace => exact absurd rfl notBrace
      | _ => rfl
    | _ => rfl
  rw [List.cons_append, plain, operand]
  rfl

theorem identifier (i : Identifier) : Marked i.lexemes i.toNode.walk := by
  intro rest
  cases i <;> rfl

theorem header (i : Identifier) :
    Marked (.symbol .sum :: .leftBrace :: i.lexemes ++ [.equals]) (.operator .sum :: i.toNode.walk) := by
  intro rest
  cases i <;> rfl

end Marked

/-- What a part keeps of its lexemes. Behind the last sign of a chain there is an expression. -/
def Part.Keeps (ls : List Lexeme) : Part → Prop
  | .chain c => ∀ ks ms, Marked ks ms → Begins ks → Marked (ls ++ ks) (c.walk ++ ms)
  | .opening frame => Marked ls frame.walk
  | .operand p _ | .whole p => Marked ls p.expr.walk

theorem Reads.keeps (read : Reads ls part) : part.Keeps ls := by
  induction read with
  | chainNil => exact fun ks ms held _ => held
  | @chainSign _ c _ p _ s _ operand chain value =>
    intro ks ms held begins
    have behind := value.append (held.sign s begins)
    have whole := chain _ _ behind (operand.alone.begins.append _)
    simpa [Chain.walk] using whole
  | group | argument | unary | binary | ternary | number => exact fun _ => rfl
  | second _ _ opening whole | parenthesised _ _ opening whole | call _ _ opening whole =>
    exact opening.close whole fun _ => rfl
  | third _ _ opening whole | later _ _ opening whole | pair _ _ opening whole
  | vector _ _ opening whole =>
    simpa [Part.Keeps, Frame.walk, Phrase.plain] using opening.close whole fun _ => rfl
  | subscript _ _ operand => exact operand.append fun _ => rfl
  | sumSubscript _ _ operand opening chain value =>
    have summand := chain _ _ value operand.alone.begins
    have mark : Marked [.index] [.operator .index] := fun _ => rfl
    simpa [Part.Keeps, Frame.walk, Phrase.plain, Chain.walk_join] using (opening.append summand).append mark
  | supply _ _ supplied opening whole =>
    rw [Part.Keeps, Frame.walk, Application.walk_inl supplied]
    exact opening.close whole fun _ => rfl
  | start => exact .header _
  | bound _ _ opening whole | summand _ _ opening whole =>
    simpa [Part.Keeps, Frame.walk] using opening.close whole fun _ => rfl
  | identifier => exact .identifier _
  | indexed _ _ opening whole =>
    simpa [Part.Keeps, Frame.walk, Phrase.index] using opening.close whole fun _ => rfl
  | applied _ _ supplied opening whole =>
    have value := Application.walk_inr supplied
    rw [Part.Keeps, Phrase.plain, value]
    exact opening.close whole fun _ => rfl
  | last _ operand chain value =>
    rw [Part.Keeps, Chain.walk_join]
    exact chain _ _ value operand.alone.begins
  | lastSum _ opens read chain opening whole =>
    have sum := Reads.lastSum .chainNil opens read
    rw [Part.Keeps, Chain.walk_join, List.append_assoc]
    refine chain _ _ ?_ sum.begins
    simpa [Frame.walk, Phrase.plain] using opening.append whole

/-! Statements. -/

/-- The tree of an expression binds no parameter. -/
theorem Expression.walk_assigned (name : Node) (e : Expression) :
    (Node.doubleArity .assignment name e.toNode).walk = name.walk ++ .operator .assignment :: e.walk := by
  cases e <;> rfl

theorem Statement.walk_declaration (head : Head) (body : Expression) :
    (Statement.declaration head body).toNode.walk =
      head.expression.walk ++ [.operator .assignment] ++ body.walk := by
  cases head with
  | name i => simp [toNode, Expression.walk_assigned, Node.walk, Head.expression]
  | applied f i =>
    simp [toNode, Node.walk, Head.expression, Expression.walk, Expression.toNode]
  | mapped f p i =>
    simp [toNode, Node.walk, Atom.marks, Operator.isBetween, Head.expression, Expression.walk,
      Expression.toNode, Identifier.toNode]

theorem ReadsStatement.marked (read : ReadsStatement goal ls s) : Marked ls s.toNode.walk := by
  cases read with
  | expression whole => exact whole.keeps
  | declaration _ target named definition =>
    have equals : Marked [.equals] [.operator .assignment] := fun _ => rfl
    have front := target.keeps
    rw [Part.Keeps, target.faithful _ named] at front
    rw [Statement.walk_declaration]
    exact (front.append equals).append definition.keeps

theorem marked_newlines (n : Nat) : Marked (newlines n) [] := by
  induction n with
  | zero => exact fun _ => rfl
  | succ n ih => exact fun ks => ih ks

theorem marksOf_eq (lexes : Lexes text ls) : marksOf text = marks ls := by
  have pieces := (scan_eq_lexemes_iff text ls).mpr lexes
  have kept (l : Lexeme) : (Piece.lexeme? ∘ Piece.lexeme) l = some l := rfl
  have same : (scan text).filterMap (·.piece.lexeme?) = ls := by
    rw [show (fun p : Placed => p.piece.lexeme?) = Piece.lexeme? ∘ (·.piece) from rfl,
      ← List.filterMap_map, pieces, List.filterMap_map, funext kept, List.filterMap_some]
  rw [marksOf, same]

/-- No operand and no operator of a text is lost, doubled or moved: the marks of the text are those of the
tree that is read from it, in the same order. -/
theorem marksOf_eq_walk (ok : parseStatement text = .ok s) : marksOf text = s.toNode.walk := by
  obtain ⟨n, ks, m, lexes, statement⟩ := (parseStatement_ok_iff text s).mp ok
  have all := ((marked_newlines n).append statement.marked).append (marked_newlines m)
  simpa [marksOf_eq lexes, marks] using all []

/-- The sign of the power is a mark, that of the header is none. -/
theorem marksOf_eq_walk_of_map : ∃ s,
    parseStatement "f(\\vec\x7bp\x7d)_\x7bi\x7d = \\sum_\x7bk=1\x7d^\x7bi\x7d k^2".toList = .ok s ∧
    marksOf "f(\\vec\x7bp\x7d)_\x7bi\x7d = \\sum_\x7bk=1\x7d^\x7bi\x7d k^2".toList = s.toNode.walk ∧
    s.toNode.walk = [.scalar "f", .vector "p", .operator .index, .scalar "i", .operator .assignment,
      .operator .sum, .scalar "k", .number (.real (numberValue ['1'] [])), .scalar "i", .scalar "k",
      .operator (.sign .power), .number (.real (numberValue ['2'] []))] :=
  ⟨_, rfl, marksOf_eq_walk rfl, rfl⟩

end Formulary
