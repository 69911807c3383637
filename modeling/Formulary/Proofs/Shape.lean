import Formulary.Node
import Formulary.Proofs.Texts

/-! What every result looks like. Names are letters and numbers have no sign in all that is read, and in
trees declarations, parameters and bindings stand in their own places only. -/
namespace Formulary

inductive Binary64.Unsigned : Binary64 → Prop where
  | finite : Unsigned (.finite false units)
  | infinite : Unsigned (.infinite false)

def Identifier.WellFormed : Identifier → Prop
  | .scalar c | .vector c => isLetter c = true

/-- All names are letters, and the numbers are as asked. -/
inductive Expression.WellFormed (P : Binary64 → Prop) : Expression → Prop where
  | number : P x → WellFormed P (.number x)
  | identifier : i.WellFormed → WellFormed P (.variable i)
  | call : isLetter f = true → WellFormed P a → WellFormed P (.call f a)
  | vector : WellFormed P a → WellFormed P b → (∀ e ∈ others, WellFormed P e) →
      WellFormed P (.vector a b others)
  | sign : WellFormed P a → WellFormed P b → WellFormed P (.sign s a b)
  | index : WellFormed P a → WellFormed P b → WellFormed P (.index a b)
  | unary : WellFormed P a → WellFormed P (.unary s a)
  | binary : WellFormed P a → WellFormed P b → WellFormed P (.binary s a b)
  | ternary : WellFormed P a → WellFormed P b → WellFormed P c → WellFormed P (.ternary s a b c)
  | sum : i.WellFormed → WellFormed P a → WellFormed P b → WellFormed P c →
      WellFormed P (.sum i a b c)

def Head.WellFormed : Head → Prop
  | .name id => id.WellFormed
  | .applied f p => isLetter f = true ∧ p.WellFormed
  | .mapped f p i => isLetter f = true ∧ isLetter p = true ∧ isLetter i = true

def Statement.WellFormed (P : Binary64 → Prop) : Statement → Prop
  | .expression e => e.WellFormed P
  | .declaration head body => head.WellFormed ∧ body.WellFormed P

/-! What is read is well formed. -/

variable {P : Binary64 → Prop}

structure Phrase.WellFormed (P : Binary64 → Prop) (p : Phrase) : Prop where
  expr : p.expr.WellFormed P
  head : ∀ h ∈ p.head, h.WellFormed

theorem Phrase.WellFormed.plain (held : Expression.WellFormed P e) : (Phrase.plain e).WellFormed P :=
  ⟨held, nofun⟩

theorem Phrase.WellFormed.call {p : Phrase} (letter : isLetter f = true) (held : p.WellFormed P) :
    (Phrase.call f p).WellFormed P := by
  refine ⟨.call letter held.expr, ?_⟩
  intro h found
  simp only [Phrase.call, Option.mem_def] at found
  split at found
  · next id named =>
    cases found
    exact ⟨letter, held.head _ named⟩
  · cases found

theorem Phrase.WellFormed.index {p q : Phrase} (base : p.WellFormed P) (subscript : q.WellFormed P) :
    (Phrase.index p q).WellFormed P := by
  refine ⟨.index base.expr subscript.expr, ?_⟩
  intro h found
  simp only [Phrase.index, Option.mem_def] at found
  split at found
  · next f v i applied named =>
    cases found
    obtain ⟨callee, parameter⟩ := base.head _ applied
    exact ⟨callee, parameter, subscript.head _ named⟩
  · cases found

def Waiting (P : Binary64 → Prop) (left : Option (Expression × InfixSign)) : Prop :=
  ∀ o ∈ left, o.1.WellFormed P

structure Tiers.WellFormed (P : Binary64 → Prop) (t : Tiers) : Prop where
  sums : Waiting P t.sums
  products : Waiting P t.products
  powers : Waiting P t.powers

theorem Waiting.none : Waiting P none := nofun

theorem Waiting.some (held : e.WellFormed P) : Waiting P (some (e, s)) := by
  intro o found
  cases found
  exact held

theorem Waiting.attach (left : Waiting P o) (right : e.WellFormed P) :
    (Tiers.attach o e).WellFormed P := by
  cases o with
  | none => exact right
  | some waiting => exact .sign (left waiting rfl) right

namespace Tiers.WellFormed

variable {t : Tiers} {e : Expression}

theorem power (held : t.WellFormed P) (operand : e.WellFormed P) : (t.power e).WellFormed P :=
  held.powers.attach operand

theorem product (held : t.WellFormed P) (operand : e.WellFormed P) : (t.product e).WellFormed P :=
  held.products.attach (held.power operand)

theorem sum (held : t.WellFormed P) (operand : e.WellFormed P) : (t.sum e).WellFormed P :=
  held.sums.attach (held.product operand)

theorem push (held : t.WellFormed P) (operand : e.WellFormed P) (s : InfixSign) :
    (t.push e s).WellFormed P := by
  cases s with
  | power => exact ⟨held.sums, held.products, .some (held.power operand)⟩
  | times | divide => exact ⟨held.sums, .some (held.product operand), .none⟩
  | plus | minus => exact ⟨.some (held.sum operand), .none, .none⟩

end Tiers.WellFormed

def Chain.WellFormed (P : Binary64 → Prop) (c : Chain) : Prop := ∀ o ∈ c, o.1.WellFormed P

theorem Chain.WellFormed.tiers {c : Chain} (held : c.WellFormed P) : c.tiers.WellFormed P := by
  induction c with
  | nil => exact ⟨.none, .none, .none⟩
  | cons o c ih =>
    have before := ih fun o member => held o (.tail _ member)
    exact before.push (held o (.head _)) o.2

theorem Chain.WellFormed.join {c : Chain} {p : Phrase} (held : c.WellFormed P)
    (last : p.WellFormed P) : (c.join p).WellFormed P := by
  cases c with
  | nil => exact last
  | cons o c => exact .plain (held.tiers.sum last.expr)

def Application.WellFormed (P : Binary64 → Prop) : Application → Prop
  | .unary _ | .binary _ | .ternary _ => True
  | .binarySecond _ a | .ternarySecond _ a => a.WellFormed P
  | .ternaryThird _ a b => a.WellFormed P ∧ b.WellFormed P

theorem Application.WellFormed.inl {a a' : Application} (held : a.WellFormed P)
    (operand : e.WellFormed P) (supplied : a.supply e = .inl a') : a'.WellFormed P := by
  cases a with
  | unary | binarySecond | ternaryThird => cases supplied
  | binary | ternary =>
    cases supplied
    exact operand
  | ternarySecond s first =>
    cases supplied
    exact ⟨held, operand⟩

theorem Application.WellFormed.inr {a : Application} (held : a.WellFormed P)
    (operand : e.WellFormed P) (supplied : a.supply e = .inr e') : e'.WellFormed P := by
  cases a with
  | binary | ternary | ternarySecond => cases supplied
  | unary =>
    cases supplied
    exact .unary operand
  | binarySecond s first =>
    cases supplied
    exact .binary held operand
  | ternaryThird s first second =>
    cases supplied
    exact .ternary held.1 held.2 operand

def Frame.WellFormed (P : Binary64 → Prop) : Frame → Prop
  | .group => True
  | .second a => a.WellFormed P
  | .later a b others => a.WellFormed P ∧ b.WellFormed P ∧ ∀ e ∈ others, e.WellFormed P
  | .argument f => isLetter f = true
  | .subscript base => base.WellFormed P
  | .operand a => a.WellFormed P
  | .start id => id.WellFormed
  | .bound id a => id.WellFormed ∧ a.WellFormed P
  | .summand id a b => id.WellFormed ∧ a.WellFormed P ∧ b.WellFormed P

def Part.WellFormed (P : Binary64 → Prop) : Part → Prop
  | .chain c => c.WellFormed P
  | .opening frame => frame.WellFormed P
  | .operand p _ => p.WellFormed P
  | .whole p => p.WellFormed P

theorem Identifier.wellFormed_of_spelt {i : Identifier} (spelt : ∀ l ∈ i.lexemes, l.Spelt) :
    i.WellFormed := by
  cases i with
  | scalar c => exact spelt (.scalar c) (by simp [lexemes])
  | vector c => exact spelt (.scalar c) (by simp [lexemes])

/-- The rules make well-formed expressions of lexemes that are spelt as they should. -/
theorem Reads.wellFormed (values : ∀ whole fraction, P (numberValue whole fraction))
    (read : Reads ls part) (spelt : ∀ l ∈ ls, l.Spelt) : part.WellFormed P := by
  induction read with
  | chainNil => exact nofun
  | chainSign _ _ chain operand =>
    intro o member
    rcases List.mem_cons.mp member with rfl | member
    · exact (operand fun l found => spelt l (by simp [found])).expr
    · exact chain (fun l found => spelt l (by simp [found])) o member
  | group | unary | binary | ternary => exact trivial
  | second _ _ _ whole => exact (whole fun l found => spelt l (by simp [found])).expr
  | third _ _ opening whole =>
    exact ⟨opening fun l found => spelt l (by simp [found]),
      (whole fun l found => spelt l (by simp [found])).expr, nofun⟩
  | later _ _ opening whole =>
    obtain ⟨first, second, others⟩ := opening fun l found => spelt l (by simp [found])
    have item := whole fun l found => spelt l (by simp [found])
    exact ⟨first, second, List.forall_mem_cons.mpr ⟨item.expr, others⟩⟩
  | @argument f => exact spelt (.callee f) (by simp)
  | subscript _ _ operand => exact operand fun l found => spelt l (by simp [found])
  | sumSubscript _ _ _ opening chain operand =>
    obtain ⟨id, start, bound⟩ := opening fun l found => spelt l (by simp [found])
    have before := chain fun l found => spelt l (by simp [found])
    have last := operand fun l found => spelt l (by simp [found])
    exact .plain (.sum id start bound (before.join last).expr)
  | supply _ _ supplied opening whole =>
    have before := opening fun l found => spelt l (by simp [found])
    exact before.inl (whole fun l found => spelt l (by simp [found])).expr supplied
  | @start i => exact Identifier.wellFormed_of_spelt fun l found => spelt l (by simp [found])
  | bound _ _ opening whole =>
    exact ⟨opening fun l found => spelt l (by simp [found]),
      (whole fun l found => spelt l (by simp [found])).expr⟩
  | summand _ _ opening whole =>
    obtain ⟨id, start⟩ := opening fun l found => spelt l (by simp [found])
    exact ⟨id, start, (whole fun l found => spelt l (by simp [found])).expr⟩
  | number => exact .plain (.number (values _ _))
  | @identifier i =>
    have id := Identifier.wellFormed_of_spelt spelt
    refine ⟨.identifier id, ?_⟩
    intro h found
    cases found
    exact id
  | parenthesised _ _ _ whole =>
    exact .plain (whole fun l found => spelt l (by simp [found])).expr
  | pair _ _ opening whole =>
    exact .plain (.vector (opening fun l found => spelt l (by simp [found]))
      (whole fun l found => spelt l (by simp [found])).expr nofun)
  | vector _ _ opening whole =>
    obtain ⟨first, second, others⟩ := opening fun l found => spelt l (by simp [found])
    have item := whole fun l found => spelt l (by simp [found])
    refine .plain (.vector first second fun e member => ?_)
    rcases List.mem_cons.mp (List.mem_reverse.mp member) with rfl | member
    · exact item.expr
    · exact others e member
  | call _ _ opening whole =>
    exact .call (opening fun l found => spelt l (by simp [found]))
      (whole fun l found => spelt l (by simp [found]))
  | indexed _ _ opening whole =>
    exact .index (opening fun l found => spelt l (by simp [found]))
      (whole fun l found => spelt l (by simp [found]))
  | applied _ _ supplied opening whole =>
    have before := opening fun l found => spelt l (by simp [found])
    exact .plain (before.inr (whole fun l found => spelt l (by simp [found])).expr supplied)
  | last _ _ chain operand =>
    have before := chain fun l found => spelt l (by simp [found])
    exact before.join (operand fun l found => spelt l (by simp [found]))
  | lastSum _ _ _ chain opening whole =>
    have before := chain fun l found => spelt l (by simp [found])
    obtain ⟨id, start, bound⟩ := opening fun l found => spelt l (by simp [found])
    have summand := whole fun l found => spelt l (by simp [found])
    exact before.join (.plain (.sum id start bound summand.expr))

theorem Lexes.spelt (lexes : Lexes text ls) : ∀ l ∈ ls, l.Spelt := by
  obtain ⟨b, scans⟩ := lexes
  generalize complete : ([] : List Char) = rest at scans
  generalize false = before at scans
  induction scans with
  | done => exact nofun
  | blank _ _ ih => exact ih complete
  | lexeme spelt _ _ _ _ ih => exact List.forall_mem_cons.mpr ⟨spelt, ih complete⟩

theorem ReadsStatement.wellFormed (values : ∀ whole fraction, P (numberValue whole fraction))
    (read : ReadsStatement goal ls s) (spelt : ∀ l ∈ ls, l.Spelt) : s.WellFormed P := by
  cases read with
  | expression whole => exact (whole.wellFormed values spelt).expr
  | declaration _ target named body =>
    have left := target.wellFormed values fun l found => spelt l (by simp [found])
    have right := body.wellFormed values fun l found => spelt l (by simp [found])
    exact ⟨left.head _ named, right.expr⟩

theorem ReadsLines.wellFormed (values : ∀ whole fraction, P (numberValue whole fraction))
    (read : ReadsLines ls sts) (spelt : ∀ l ∈ ls, l.Spelt) : ∀ s ∈ sts, s.WellFormed P := by
  induction read with
  | start => exact nofun
  | newline _ ih => exact ih fun l found => spelt l (by simp [found])
  | statement _ statement ih =>
    have before := ih fun l found => spelt l (by simp [found])
    have last := statement.wellFormed values fun l found => spelt l (by simp [found])
    exact List.forall_mem_append.mpr ⟨before, List.forall_mem_singleton.mpr last⟩

/-! Trees of what is well formed. -/

namespace Node

def IsName : Node → Prop
  | .scalarId name | .vectorId name => ∃ c, isLetter c = true ∧ name = letter c
  | _ => False

/-- Trees of expressions: each operator stands in the class of its number of operands, and a binding
exactly before the bound and the summand of a sum. -/
inductive IsFormula : Node → Prop where
  | number : x.Unsigned → IsFormula (.number (.real x))
  | variable : i.IsName → IsFormula (.variable i)
  | application : (Node.scalarId f).IsName → IsFormula a →
      IsFormula (.application (.variable (.scalarId f)) a)
  | vector : 2 ≤ items.length → (∀ n ∈ items, IsFormula n) → IsFormula (.vector items)
  | singleArity : op ∈ Symbol.table 1 → IsFormula a → IsFormula (.singleArity op a)
  | doubleArity : op ∈ Symbol.table 2 ∨ op = .index ∨ (∃ s, op = .sign s) →
      IsFormula a → IsFormula b → IsFormula (.doubleArity op a b)
  | tripleArity : op ∈ Symbol.table 3 → op ≠ .sum → IsFormula a → IsFormula b → IsFormula c →
      IsFormula (.tripleArity op a b c)
  | sum : i.IsName → IsFormula a → IsFormula b → IsFormula c →
      IsFormula (.tripleArity .sum (.binding i a) b c)

/-- Trees of statements: only at the root can something be assigned, and only there to a function. -/
inductive IsStatement : Node → Prop where
  | formula : IsFormula n → IsStatement n
  | value : i.IsName → IsFormula body →
      IsStatement (.doubleArity .assignment (.variable i) body)
  | function : (Node.scalarId f).IsName → p.IsName → IsFormula body →
      IsStatement (.doubleArity .assignment (.variable (.scalarId f)) (.abstraction p body))
  | map : (Node.scalarId f).IsName → (Node.vectorId p).IsName → isLetter i = true →
      IsFormula body → IsStatement (.doubleArity .assignment (.variable (.scalarId f))
        (.mapAbstraction (.vectorId p) (.text (letter i)) body))

end Node

theorem Identifier.WellFormed.isName {i : Identifier} (held : i.WellFormed) : i.toNode.IsName := by
  cases i <;> exact ⟨_, held, rfl⟩

theorem Expression.WellFormed.isFormula {e : Expression} (held : e.WellFormed Binary64.Unsigned) :
    e.toNode.IsFormula := by
  induction held with
  | number unsigned => exact .number unsigned
  | identifier id => exact .variable id.isName
  | call letter _ argument => exact .application ⟨_, letter, rfl⟩ argument
  | vector _ _ _ first second others =>
    refine .vector (by simp) ?_
    rw [Expression.toNodes_eq_map]
    intro n member
    rcases List.mem_cons.mp member with rfl | member
    · exact first
    rcases List.mem_cons.mp member with rfl | member
    · exact second
    · obtain ⟨e, found, rfl⟩ := List.mem_map.mp member
      exact others e found
  | @sign _ _ s _ _ left right => exact .doubleArity (.inr (.inr ⟨s, rfl⟩)) left right
  | index _ _ base subscript => exact .doubleArity (.inr (.inl rfl)) base subscript
  | unary _ operand => exact .singleArity (by simp [Symbol.table, UnarySymbol.mem_all]) operand
  | binary _ _ left right =>
    exact .doubleArity (.inl (by simp [Symbol.table, BinarySymbol.mem_all])) left right
  | ternary _ _ _ first second third =>
    exact .tripleArity (by simp [Symbol.table, TernarySymbol.mem_all]) nofun first second third
  | sum id _ _ _ start bound summand => exact .sum id.isName start bound summand

theorem Statement.WellFormed.isStatement {s : Statement} (held : s.WellFormed Binary64.Unsigned) :
    s.toNode.IsStatement := by
  cases s with
  | expression e => exact .formula (Expression.WellFormed.isFormula held)
  | declaration head body =>
    obtain ⟨names, formula⟩ := held
    cases head with
    | name id => exact .value names.isName formula.isFormula
    | applied f p => exact .function ⟨_, names.1, rfl⟩ names.2.isName formula.isFormula
    | mapped f p i =>
      exact .map ⟨_, names.1, rfl⟩ ⟨_, names.2.1, rfl⟩ names.2.2 formula.isFormula

theorem Binary64.ofRatio_unsigned (numerator denominator : Nat) :
    (ofRatio false numerator denominator).Unsigned := by
  unfold ofRatio
  dsimp only
  split
  · exact .finite
  · exact .infinite

theorem numberValue_unsigned (whole fraction : List Char) :
    (numberValue whole fraction).Unsigned :=
  Binary64.ofRatio_unsigned _ _

/-- Every tree that is read has the shape of a statement, and of a formula where only an expression is
read. -/
theorem parsed_shape (text : List Char) :
    (∀ sheet, parseSheet text = .ok sheet →
      ∃ nodes, Sheet.toNode sheet = .program nodes ∧ ∀ n ∈ nodes, n.IsStatement) ∧
    (∀ s, parseStatement text = .ok s → s.toNode.IsStatement) ∧
    (∀ e, parseExpression text = .ok e → e.toNode.IsFormula) := by
  refine ⟨?_, ?_, ?_⟩
  · intro sheet ok
    obtain ⟨ls, lexes, lines⟩ := (parseSheet_ok_iff text sheet).mp ok
    have held := lines.wellFormed (P := Binary64.Unsigned) numberValue_unsigned fun l found =>
      lexes.spelt l (by simp [found])
    refine ⟨_, rfl, fun n member => ?_⟩
    obtain ⟨s, found, rfl⟩ := List.mem_map.mp member
    exact (held s found).isStatement
  · intro s ok
    obtain ⟨n, ks, m, lexes, statement⟩ := (parseStatement_ok_iff text s).mp ok
    have held := statement.wellFormed (P := Binary64.Unsigned) numberValue_unsigned fun l found =>
      lexes.spelt l (by simp [found])
    exact held.isStatement
  · intro e ok
    obtain ⟨n, ks, m, p, lexes, whole, rfl⟩ := (parseExpression_ok_iff text e).mp ok
    have held := whole.wellFormed (P := Binary64.Unsigned) numberValue_unsigned fun l found =>
      lexes.spelt l (by simp [found])
    exact held.expr.isFormula

theorem parsed_shape_instances :
    (∃ nodes, Sheet.toNode [.expression
        (.vector (.variable (.scalar 'x')) (.variable (.scalar 'y')) [])] = .program nodes ∧
      ∀ n ∈ nodes, n.IsStatement) ∧
    (Statement.declaration (.applied 'f' (.scalar 'x'))
      (.variable (.scalar 'x'))).toNode.IsStatement ∧
    (Expression.unary .sqrt (.number (numberValue ['2'] []))).toNode.IsFormula :=
  ⟨(parsed_shape ['(', 'x', ',', 'y', ')', '\n', 'E', 'O', 'F']).1 _ rfl,
    (parsed_shape ['f', '(', 'x', ')', '=', 'x']).2.1 _ rfl,
    (parsed_shape ['\\', 's', 'q', 'r', 't', '{', '2', '}']).2.2 _ rfl⟩

end Formulary
