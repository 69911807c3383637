import Formulary.Proofs.Joining
import Formulary.Proofs.Places
import Formulary.Proofs.Printing

/-! What is printed is read back. Operands that a sign joins first are read with it, whatever waits at
looser signs before them, so that an infix expression can stand where its tier lets it. -/
namespace Formulary

namespace Tiers

/-- No operand waits at a sign that binds as tightly as a tier. -/
structure ClearFrom (tier : Nat) (t : Tiers) : Prop where
  powers : tier ≤ 3 → t.powers = none
  products : tier ≤ 2 → t.products = none
  sums : tier ≤ 1 → t.sums = none

theorem clearFrom_empty (tier : Nat) : empty.ClearFrom tier :=
  ⟨fun _ => rfl, fun _ => rfl, fun _ => rfl⟩

variable {t : Tiers} {k m : Nat}

theorem ClearFrom.mono (clear : t.ClearFrom k) (tighter : k ≤ m) : t.ClearFrom m :=
  ⟨fun low => clear.powers (by omega), fun low => clear.products (by omega),
    fun low => clear.sums (by omega)⟩

/-- All that binds tighter than a sign has been joined before it. -/
theorem clearFrom_push (t : Tiers) (e : Expression) {s : InfixSign} (tighter : s.tier < k) :
    (t.push e s).ClearFrom k := by
  cases s with
  | power =>
    have low : 3 < k := tighter
    exact ⟨by omega, by omega, by omega⟩
  | times | divide =>
    have low : 2 < k := tighter
    exact ⟨fun _ => rfl, by omega, by omega⟩
  | plus | minus =>
    have low : 1 < k := tighter
    exact ⟨fun _ => rfl, fun _ => rfl, by omega⟩

variable {s : InfixSign} (clear : t.ClearFrom s.tier) (a b : Expression)
include clear

/-- A sign that binds no tighter than the one before it finds the two operands joined. -/
theorem push_push {r : InfixSign} (looser : r.tier ≤ s.tier) :
    (t.push a s).push b r = t.push (.sign s a b) r := by
  cases s with
  | power =>
    have powers := clear.powers (by decide)
    cases r <;> simp [push, sum, product, power, attach, powers]
  | times | divide =>
    have powers := clear.powers (by decide)
    have products := clear.products (by decide)
    cases r with
    | power => exact absurd looser (by decide)
    | _ => simp [push, sum, product, power, attach, powers, products]
  | plus | minus =>
    have powers := clear.powers (by decide)
    have products := clear.products (by decide)
    have sums := clear.sums (by decide)
    cases r with
    | power | times | divide => exact absurd looser (by decide)
    | _ => simp [push, sum, product, power, attach, powers, products, sums]

theorem sum_push : (t.push a s).sum b = t.sum (.sign s a b) := by
  cases s with
  | power =>
    have powers := clear.powers (by decide)
    simp [push, sum, product, power, attach, powers]
  | times | divide =>
    have powers := clear.powers (by decide)
    have products := clear.products (by decide)
    simp [push, sum, product, power, attach, powers, products]
  | plus | minus =>
    have powers := clear.powers (by decide)
    have products := clear.products (by decide)
    have sums := clear.sums (by decide)
    simp [push, sum, product, power, attach, powers, products, sums]

end Tiers

/-! Operands in a row. -/

namespace Chain

/-- A chain behind operands that wait. -/
def onto (c : Chain) (t : Tiers) : Tiers := c.foldr (fun operand t => t.push operand.1 operand.2) t

/-- Where nothing waits at a tier, any sign of the tier or a looser one finds the chain and its last
operand joined to the expression. -/
def JoinsAt (c : Chain) (k : Nat) (last e : Expression) : Prop :=
  ∀ t : Tiers, t.ClearFrom k → (∀ r : InfixSign, r.tier ≤ k → (c.onto t).push last r = t.push e r) ∧
    (c.onto t).sum last = t.sum e

theorem joinsAt_nil (k : Nat) (e : Expression) : JoinsAt [] k e e := fun _ _ => ⟨fun _ _ => rfl, rfl⟩

theorem JoinsAt.expr_join {c : Chain} {p : Phrase} (joins : c.JoinsAt k p.expr e) :
    (c.join p).expr = e := by
  have sum := (joins .empty (Tiers.clearFrom_empty k)).2
  cases c with
  | nil => exact sum
  | cons o c => exact sum

theorem JoinsAt.sign {c d : Chain} {s : InfixSign} (left : c.JoinsAt k first a) (below : s.tier ≤ k)
    (right : d.JoinsAt m last b) (above : s.tier < m) :
    JoinsAt (d ++ (first, s) :: c) s.tier last (.sign s a b) := by
  intro t clear
  have onto : onto (d ++ (first, s) :: c) t = d.onto (t.push a s) := by
    have joined := (left t (clear.mono below)).1 s below
    simp only [Chain.onto] at joined ⊢
    rw [List.foldr_append, List.foldr_cons, joined]
  obtain ⟨pushed, summed⟩ := right (t.push a s) (Tiers.clearFrom_push t a above)
  rw [onto]
  constructor
  · intro r looser
    rw [pushed r (by omega), Tiers.push_push clear a b looser]
  · rw [summed, Tiers.sum_push clear]

end Chain

theorem Reads.chain_append (first : Reads ls (.chain c)) (last : Reads ks (.chain d)) :
    Reads (ls ++ ks) (.chain (d ++ c)) := by
  generalize chain : Part.chain d = part at last
  induction last generalizing d with
  | chainNil =>
    cases chain
    simpa using first
  | chainSign _ operand ih =>
    cases chain
    simpa using (ih rfl).chainSign operand
  | _ => cases chain

/-- Lexemes that are read as operands which join at a tier. -/
inductive ReadsAt (k : Nat) : List Lexeme → Expression → Prop where
  | intro : Reads cs (.chain c) → Reads ks (.operand p ending) → c.JoinsAt k p.expr e →
      ReadsAt k (cs ++ ks) e

namespace ReadsAt

theorem operand (read : Reads ls (.operand p ending)) (k : Nat) : ReadsAt k ls p.expr :=
  .intro (k := k) .chainNil read (Chain.joinsAt_nil k p.expr)

theorem whole (read : ReadsAt k ls e) : ∃ p, Reads ls (.whole p) ∧ p.expr = e := by
  obtain ⟨chain, operand, joins⟩ := read
  exact ⟨_, .last chain operand, joins.expr_join⟩

theorem sign {s : InfixSign} (left : ReadsAt k ls a) (below : s.tier ≤ k) (right : ReadsAt m ks b)
    (above : s.tier < m) : ReadsAt s.tier (ls ++ [.sign s] ++ ks) (.sign s a b) := by
  obtain ⟨before, first, joinsLeft⟩ := left
  obtain ⟨between, last, joinsRight⟩ := right
  have chain := (before.chainSign first (s := s)).chain_append between
  simpa using ReadsAt.intro chain last (joinsLeft.sign below joinsRight above)

end ReadsAt

/-! Expressions. -/

/-- What is read from the lexemes of an expression, as far as it stands without parentheses. -/
structure Recovers (ls : List Lexeme) (e : Expression) : Prop where
  whole : ∃ p, Reads ls (.whole p) ∧ p.expr = e
  operands : e.isSum = false → ReadsAt e.tier ls e
  base : e.looseBase = false →
    ∃ p ending, Reads ls (.operand p ending) ∧ ending ≠ .indexed ∧ p.expr = e

namespace Recovers

theorem of_operand (read : Reads ls (.operand p ending))
    (index : ending = .indexed → p.expr.looseBase = true) : Recovers ls p.expr where
  whole := (ReadsAt.operand read 0).whole
  operands := fun _ => .operand read _
  base := by
    intro tight
    refine ⟨p, ending, read, ?_, rfl⟩
    intro indexed
    cases tight.symm.trans (index indexed)

theorem of_plain (read : Reads ls (.operand p ending)) (plain : ending ≠ .indexed) :
    Recovers ls p.expr :=
  of_operand read fun indexed => absurd indexed plain

variable {ls ks : List Lexeme} {e : Expression}

theorem parenthesised (held : Recovers ls e) :
    Reads (enclosed true ls) (.operand (.plain e) .plain) := by
  obtain ⟨p, read, rfl⟩ := held.whole
  exact .parenthesised .group read

/-- An operand to the left of a sign binds as tightly as the sign or has parentheses. -/
theorem left (held : Recovers ls e) (s : InfixSign) :
    ∃ k, s.tier ≤ k ∧ ReadsAt k (enclosed (e.looseLeft s) ls) e := by
  cases loose : e.looseLeft s with
  | false =>
    simp only [Expression.looseLeft, Bool.or_eq_false_iff, decide_eq_false_iff_not] at loose
    exact ⟨e.tier, by omega, held.operands loose.2⟩
  | true => exact ⟨s.tier, by omega, .operand held.parenthesised _⟩

theorem right (held : Recovers ls e) (s : InfixSign) :
    ∃ k, s.tier < k ∧ ReadsAt k (enclosed (e.looseRight s) ls) e := by
  cases loose : e.looseRight s with
  | false =>
    simp only [Expression.looseRight, Bool.or_eq_false_iff, decide_eq_false_iff_not] at loose
    exact ⟨e.tier, by omega, held.operands loose.2⟩
  | true => exact ⟨s.tier + 1, by omega, .operand held.parenthesised _⟩

theorem indexed (held : Recovers ls e) : ∃ p, p.expr = e ∧
    Reads (enclosed e.looseBase ls ++ [.index]) (.opening (.subscript p)) := by
  cases loose : e.looseBase with
  | false =>
    obtain ⟨p, ending, read, plain, value⟩ := held.base loose
    exact ⟨p, value, .subscript read plain⟩
  | true => exact ⟨.plain e, rfl, .subscript held.parenthesised nofun⟩

theorem sign {a b : Expression} (first : Recovers ls a) (second : Recovers ks b) (s : InfixSign) :
    Recovers (enclosed (a.looseLeft s) ls ++ [.sign s] ++ enclosed (b.looseRight s) ks)
      (.sign s a b) := by
  obtain ⟨k, below, left⟩ := first.left s
  obtain ⟨m, above, right⟩ := second.right s
  have read := left.sign below right above
  exact ⟨read.whole, fun _ => read, nofun⟩

/-- The items of a vector behind the first two. -/
theorem items {es : List Expression} (n : Numerals)
    (held : ∀ e ∈ es, Recovers (e.lexemes n) e) (opening : Reads ls (.opening (.later a b before)))
    (read : Reads ks (.whole p)) :
    Reads (ls ++ ks ++ Expression.lexemesItems n es ++ [.rightParen])
      (.operand (.plain (.vector a b (before.reverse ++ p.expr :: es))) .plain) := by
  induction es generalizing ls ks p before with
  | nil => simpa [Expression.lexemesItems] using opening.vector read
  | cons e es ih =>
    obtain ⟨q, item, rfl⟩ := (held e (.head _)).whole
    have rest := ih (fun e member => held e (.tail _ member)) (opening.later read) item
    simpa [Expression.lexemesItems] using rest

end Recovers

theorem Expression.WellFormed.recovers (n : Numerals) {e : Expression}
    (held : e.WellFormed Binary64.Writable) : Recovers (e.lexemes n) e := by
  induction held with
  | @number x writable =>
    have read : Reads [.number (n.whole x) (n.fraction x)] (.operand (.plain (.number x)) .plain) := by
      conv => rhs; rw [← n.value x writable]
      exact .number
    exact .of_plain read (by decide)
  | identifier => exact .of_plain .identifier (by decide)
  | call _ _ argument =>
    obtain ⟨p, read, rfl⟩ := argument.whole
    exact .of_plain (.call .argument read) (by decide)
  | @vector a b others _ _ _ first second items =>
    obtain ⟨p, readFirst, rfl⟩ := first.whole
    obtain ⟨q, readSecond, rfl⟩ := second.whole
    have opening := Reads.group.second readFirst
    cases others with
    | nil =>
      have read := opening.pair readSecond
      simpa [lexemes, lexemesItems, Phrase.plain] using Recovers.of_plain read (by decide)
    | cons e es =>
      obtain ⟨r, third, rfl⟩ := (items e (.head _)).whole
      have read := Recovers.items n (fun e member => items e (.tail _ member))
        (opening.third readSecond) third
      simpa [lexemes, lexemesItems, Phrase.plain] using Recovers.of_plain read (by decide)
  | sign _ _ left right => exact left.sign right _
  | index _ _ base subscript =>
    obtain ⟨p, rfl, opening⟩ := base.indexed
    obtain ⟨q, read, rfl⟩ := subscript.whole
    exact .of_operand (opening.indexed read) fun _ => rfl
  | unary _ operand =>
    obtain ⟨p, read, rfl⟩ := operand.whole
    exact .of_plain (.applied .unary read rfl) (by decide)
  | @binary _ _ s _ _ first second =>
    obtain ⟨p, readFirst, rfl⟩ := first.whole
    obtain ⟨q, readSecond, rfl⟩ := second.whole
    have opening := (Reads.binary (s := s)).supply readFirst rfl
    exact .of_plain (opening.applied readSecond rfl) (by decide)
  | @ternary _ _ _ s _ _ _ first second third =>
    obtain ⟨p, readFirst, rfl⟩ := first.whole
    obtain ⟨q, readSecond, rfl⟩ := second.whole
    obtain ⟨r, readThird, rfl⟩ := third.whole
    have opening := ((Reads.ternary (s := s)).supply readFirst rfl).supply readSecond rfl
    exact .of_plain (opening.applied readThird rfl) (by decide)
  | @sum _ _ _ i _ _ _ _ start bound summand =>
    obtain ⟨p, readStart, rfl⟩ := start.whole
    obtain ⟨q, readBound, rfl⟩ := bound.whole
    obtain ⟨r, readSummand, rfl⟩ := summand.whole
    have opening := ((Reads.start (i := i)).bound readStart).summand readBound
    have whole := Reads.lastSum .chainNil opening readSummand
    refine ⟨⟨_, whole, rfl⟩, ?_, ?_⟩
    · intro notSum
      cases notSum
    · intro tight
      cases tight

/-! Statements. -/

theorem Reads.alone (read : Reads ls (.operand p ending)) : Reads ls (.whole p) := by
  have whole := Reads.last .chainNil read
  exact whole

theorem Head.reads (head : Head) : ∃ p, Reads head.lexemes (.whole p) ∧ p.head = some head := by
  cases head with
  | name i => exact ⟨_, Reads.identifier.alone, rfl⟩
  | applied f p =>
    have parameter := (Reads.identifier (i := p)).alone
    exact ⟨_, (Reads.argument.call parameter).alone, rfl⟩
  | mapped f p i =>
    have parameter := (Reads.identifier (i := .vector p)).alone
    have item := (Reads.identifier (i := .scalar i)).alone
    have call := Reads.argument (f := f).call parameter
    exact ⟨_, ((call.subscript nofun).indexed item).alone, rfl⟩

theorem Statement.WellFormed.reads (n : Numerals) {s : Statement}
    (held : s.WellFormed Binary64.Writable) (declares : goal ≠ .formula) :
    ReadsStatement goal (s.lexemes n) s := by
  cases s with
  | expression e =>
    obtain ⟨p, read, rfl⟩ := (Expression.WellFormed.recovers n held).whole
    exact .expression read
  | declaration head body =>
    obtain ⟨p, target, named⟩ := head.reads
    obtain ⟨q, read, rfl⟩ := (held.2.recovers n).whole
    exact .declaration declares target named read

theorem ReadsLines.append (n : Numerals) {sheet : Sheet} (lines : ReadsLines ls sts)
    (held : ∀ s ∈ sheet, s.WellFormed Binary64.Writable) :
    ReadsLines (ls ++ sheet.lexemes n) (sts ++ sheet) := by
  induction sheet generalizing ls sts with
  | nil => simpa [Sheet.lexemes] using lines
  | cons s sheet ih =>
    have line := lines.statement ((held s (.head _)).reads n (by decide))
    simpa [Sheet.lexemes] using ih line fun s member => held s (.tail _ member)

/-! Whole texts. -/

theorem Bare.lexes (text : Bare u ls) : Lexes u ls :=
  ⟨false, by simpa using text false [] nofun⟩

theorem parseExpression_text (n : Numerals) {e : Expression}
    (held : e.WellFormed Binary64.Writable) : parseExpression (e.text n) = .ok e := by
  obtain ⟨p, read, value⟩ := (held.recovers n).whole
  refine (parseExpression_ok_iff _ e).mpr ⟨0, e.lexemes n, 0, p, ?_, read, value⟩
  simpa [newlines] using (held.bare n).lexes

theorem parseStatement_text (n : Numerals) {s : Statement}
    (held : s.WellFormed Binary64.Writable) : parseStatement (s.text n) = .ok s := by
  refine (parseStatement_ok_iff _ s).mpr ⟨0, s.lexemes n, 0, ?_, held.reads n nofun⟩
  simpa [newlines] using (held.bare n).lexes

/-- Only the end mark has a capital letter. -/
theorem Lexeme.capital_of_mem {l : Lexeme} (spelt : l.Spelt) (member : 'E' ∈ l.text) :
    l = .endMark := by
  cases l with
  | number whole fraction =>
    have digits : 'E' ∉ whole ++ fraction := by
      intro found
      cases spelt.2 'E' found
    cases fraction <;> simp_all [text]
  | scalar c | callee c =>
    obtain rfl := List.mem_singleton.mp member
    cases spelt
  | symbol s =>
    have none : 'E' ∉ (Lexeme.symbol s).text := by
      cases s with
      | vec | sum => decide
      | unary s => cases s <;> decide
      | binary s => cases s <;> decide
      | ternary s => cases s <;> decide
    exact absurd member none
  | sign s => exact absurd member (by cases s <;> decide)
  | endMark => rfl
  | index | equals | newline | leftParen | rightParen | leftBrace | rightBrace | comma =>
    exact absurd member (by decide)

theorem mem_of_mem_splitLines {text line : List Char} (found : line ∈ splitLines text)
    (member : c ∈ line) : c ∈ text := by
  fun_induction splitLines text generalizing line with
  | case1 =>
    obtain rfl := List.mem_singleton.mp found
    cases member
  | case2 cs ih =>
    rcases List.mem_cons.mp found with rfl | found
    · cases member
    · exact .tail _ (ih found member)
  | case3 d cs _ none ih => exact absurd none (splitLines_ne_nil cs)
  | case4 d cs _ first rest split ih =>
    rcases List.mem_cons.mp found with rfl | found
    · rcases List.mem_cons.mp member with rfl | inside
      · exact .head _
      · exact .tail _ (ih (split ▸ .head _) inside)
    · exact .tail _ (ih (split ▸ .tail _ found) member)

theorem mem_of_isEndLine {line : List Char} (ends : isEndLine line = true) : 'E' ∈ line := by
  have start : (line.dropWhile isBlank).take 3 = ['E', 'O', 'F'] := of_decide_eq_true ends
  have member : 'E' ∈ (line.dropWhile isBlank).take 3 := by simp [start]
  exact (List.dropWhile_suffix isBlank).subset (List.mem_of_mem_take member)

theorem sheetBody_of_plain {text : List Char} (plain : 'E' ∉ text) : sheetBody text = text := by
  have lines : ∀ line ∈ splitLines text, isEndLine line = false := by
    intro line found
    cases ends : isEndLine line with
    | false => rfl
    | true => exact absurd (mem_of_mem_splitLines found (mem_of_isEndLine ends)) plain
  exact (bodyOf_sheetBody text).unique (.whole lines)

theorem ReadsStatement.no_endMark (read : ReadsStatement goal ls s) : .endMark ∉ ls := by
  cases read with
  | expression whole => exact whole.no_endMark
  | declaration _ target _ body => simp [target.no_endMark, body.no_endMark]

theorem ReadsLines.no_endMark (read : ReadsLines ls sts) : .endMark ∉ ls := by
  induction read with
  | start => exact nofun
  | newline _ ih => simp [ih]
  | statement _ statement ih => simp [ih, statement.no_endMark]

theorem parseSheet_text (n : Numerals) {sheet : Sheet}
    (held : ∀ s ∈ sheet, s.WellFormed Binary64.Writable) :
    parseSheet (sheet.text n) = .ok sheet := by
  cases sheet with
  | nil => rfl
  | cons s sheet =>
    have lines : ReadsLines (Sheet.lexemes n (s :: sheet)) (s :: sheet) := by
      simpa using ReadsLines.start.append n held
    have text := Sheet.lines n held
    have plain : 'E' ∉ Sheet.text n (s :: sheet) := by
      intro member
      have scans := text false []
      rcases scans.mem_text (c := 'E') (by simp [member]) with blank | ⟨l, found, inside⟩
      · cases blank
      · have spelt := Lexes.spelt ⟨_, scans⟩ l found
        obtain rfl := Lexeme.capital_of_mem spelt inside
        exact lines.no_endMark found
    refine (parseSheet_ok_iff _ _).mpr ⟨Sheet.lexemes n (s :: sheet), ⟨false, ?_⟩, lines⟩
    have endMark : Scans false Lexeme.endMark.text [.endMark] false [] :=
      .lexeme trivial trivial nofun (List.append_nil _).symm .done
    have whole := (text false Lexeme.endMark.text).trans endMark
    rw [sheetBody_of_plain plain]
    simpa [endLine] using whole

/-- What has been read can be printed, and is then read again. -/
theorem parseSheet_reprint (n : Numerals) {text : List Char} {sheet : Sheet}
    (ok : parseSheet text = .ok sheet) : parseSheet (sheet.text n) = .ok sheet := by
  obtain ⟨ls, lexes, lines⟩ := (parseSheet_ok_iff text sheet).mp ok
  have spelt : ∀ l ∈ ls, l.Spelt := fun l found => lexes.spelt l (by simp [found])
  have values : ∀ whole fraction, (numberValue whole fraction).Writable :=
    fun _ _ => Binary64.ofRatio_writable _ _
  exact parseSheet_text n (lines.wellFormed values spelt)

/-- Every sheet and every expression is what its printed text is read as, however its numbers are
written. -/
theorem parse_printed (n : Numerals) :
    (∀ sheet : Sheet, (∀ s ∈ sheet, s.WellFormed Binary64.Writable) →
      parseSheet (sheet.text n) = .ok sheet) ∧
    (∀ e : Expression, e.WellFormed Binary64.Writable → parseExpression (e.text n) = .ok e) :=
  ⟨fun _ held => parseSheet_text n held, fun _ held => parseExpression_text n held⟩

theorem parse_printed_instances : ∃ n : Numerals,
    parseSheet ['f', '(', 'x', ')', ' ', '=', ' ', '(', 'x', ' ', '+', ' ', 'x', ')', '_', '{', 'x', '}',
        '\n', 'x'] =
      .ok [.declaration (.applied 'f' (.scalar 'x')) (.index (.sign .plus (.variable (.scalar 'x'))
          (.variable (.scalar 'x'))) (.variable (.scalar 'x'))),
        .expression (.variable (.scalar 'x'))] ∧
    parseExpression (Expression.text n (.unary .sqrt (.number (.infinite false)))) =
      .ok (.unary .sqrt (.number (.infinite false))) := by
  obtain ⟨n⟩ := nonempty_numerals
  have letters : isLetter 'f' = true ∧ isLetter 'x' = true := by decide
  have x : (Expression.variable (.scalar 'x')).WellFormed Binary64.Writable :=
    .identifier letters.2
  have held : ∀ s ∈ [Statement.declaration (.applied 'f' (.scalar 'x'))
      (.index (.sign .plus (.variable (.scalar 'x')) (.variable (.scalar 'x')))
        (.variable (.scalar 'x'))), .expression (.variable (.scalar 'x'))],
      s.WellFormed Binary64.Writable := by
    intro s member
    rcases List.mem_cons.mp member with rfl | member
    · exact ⟨letters, .index (.sign x x) x⟩
    · obtain rfl := List.mem_singleton.mp member
      exact x
  exact ⟨n, (parse_printed n).1 _ held, (parse_printed n).2 _ (.unary (.number .infinite))⟩

end Formulary
