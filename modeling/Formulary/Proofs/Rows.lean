import Formulary.Proofs.Blanks
import Formulary.Proofs.Parentheses

/-! Rows of operands with infix signs between them. An operand has no sign outside its brackets, so that
the reader finds the operands of a row where they were put, and a row is read as it is folded: it is cut
at the loosest signs first, and the parts are joined from the left. -/
namespace Formulary

/-! Brackets. -/

/-- The number of open brackets behind a terminal. An index mark opens the bracket of its subscript. -/
def Terminal.deepen (depth : Nat) : Terminal → Nat
  | .leftParen | .leftBrace | .index => depth + 1
  | .rightParen | .rightBrace => depth - 1
  | _ => depth

def depthBehind (depth : Nat) (ts : List Terminal) : Nat := ts.foldl Terminal.deepen depth

/-- The terminals that stand outside all brackets, with a number of brackets open before them. -/
def outside : Nat → List Terminal → List Terminal
  | _, [] => []
  | 0, t :: ts => t :: outside (t.deepen 0) ts
  | depth + 1, t :: ts => outside (t.deepen (depth + 1)) ts

@[simp] theorem depthBehind_nil (depth : Nat) : depthBehind depth [] = depth := rfl

@[simp] theorem depthBehind_cons (depth : Nat) (t : Terminal) (ts : List Terminal) :
    depthBehind depth (t :: ts) = depthBehind (t.deepen depth) ts := rfl

@[simp] theorem depthBehind_append (depth : Nat) (ts us : List Terminal) :
    depthBehind depth (ts ++ us) = depthBehind (depthBehind depth ts) us :=
  List.foldl_append

@[simp] theorem outside_append (depth : Nat) (ts us : List Terminal) :
    outside depth (ts ++ us) = outside depth ts ++ outside (depthBehind depth ts) us := by
  induction ts generalizing depth with
  | nil => cases depth <;> rfl
  | cons t ts ih => cases depth <;> simp [outside, ih]

/-- All brackets are closed that are opened, and no others. -/
def Balanced (ts : List Terminal) : Prop :=
  ∀ depth, depthBehind depth ts = depth ∧ outside (depth + 1) ts = []

def NoSignOutside (ts : List Terminal) : Prop := ∀ s, .sign s ∉ outside 0 ts

namespace Category

/-- What is derived can stand between two signs. -/
def Single (n : Category) : Prop := n ∉ [.expression, .sum, .product, .power, .items]

def Bracketed (n : Category) (ts : List Terminal) : Prop :=
  Balanced ts ∧ (n = .operand → NoSignOutside ts) ∧
    (n.Single → ts.head? ≠ some .sum → NoSignOutside ts)

theorem Bracketed.index {base subscript : List Terminal} (single : Bracketed .primary base)
    (inner : Bracketed .expression subscript) :
    Bracketed .indexed (base ++ .index :: (subscript ++ [.rightBrace])) := by
  have closed : Balanced (base ++ .index :: (subscript ++ [.rightBrace])) := by
    intro depth
    simp [single.1 _, inner.1 _, outside, Terminal.deepen]
  refine ⟨closed, nofun, fun _ notSum s member => ?_⟩
  have notSum' : base.head? ≠ some .sum := by
    intro first
    exact notSum (by simp [first])
  simp [single.1 _, inner.1 _, outside, Terminal.deepen] at member
  exact single.2.2 (by simp [Single]) notSum' s member

/-- Every rule keeps the brackets balanced, and none but those of the signs and of the sum puts a sign
outside them. -/
theorem bracketed_of_spells (n : Category) : ∀ row ∈ n.alternatives, ∀ ts,
    expressionGrammar.Spells id Bracketed row ts → n.Bracketed ts := by
  cases n with
  | indexed =>
    simp only [alternatives, List.forall_mem_cons]
    refine ⟨?_, ?_, nofun⟩
    · rintro _ ⟨ts, _, rfl, single, rfl⟩
      simpa [Bracketed, Single] using single
    · rintro _ ⟨base, _, rfl, single, _, _, rfl, rfl, subscript, _, rfl, inner, _, _, rfl, rfl, rfl⟩
      exact single.index inner
  | _ =>
    simp +contextual [-IsEmpty.forall_iff, alternatives, ContextFreeGrammar.Spells, Bracketed, Balanced,
      NoSignOutside, Single, outside, Terminal.deepen]

theorem Derives.bracketed {n : Category} (word : n.Derives ls) :
    n.Bracketed (ls.map Lexeme.terminal) := by
  have closed : expressionGrammar.Closed id Bracketed := fun r member ts spells =>
    bracketed_of_spells r.input _ (mem_expressionGrammar.mp member) ts spells
  have derivation : expressionGrammar.Derives [.nonterminal n]
      (((ls.map Lexeme.terminal).map id).map .terminal) := by
    rw [List.map_id]
    exact word
  obtain ⟨ts, _, same, bracketed, rfl⟩ := closed.spells derivation
  rwa [same, List.append_nil]

end Category

/-! Readings. -/

/-- The brackets that a part leaves open. -/
def Part.opened : Part → Nat
  | .opening (.summand _ _ _) => 0
  | .opening _ => 1
  | _ => 0

theorem Reads.depthBehind_eq (read : Reads ls part) (depth : Nat) :
    depthBehind depth (ls.map Lexeme.terminal) = depth + part.opened := by
  induction read generalizing depth with
  | @start i | @identifier i =>
    cases i <;> simp [Identifier.lexemes, Lexeme.terminal, Symbol.terminal, Terminal.deepen, Part.opened]
  | _ => simp_all [Lexeme.terminal, Symbol.terminal, Terminal.deepen, Part.opened]

/-- Behind every operand of a chain a sign stands outside all brackets. -/
theorem Reads.chain_sign (read : Reads ls (.chain c)) (filled : c ≠ []) :
    ¬NoSignOutside (ls.map Lexeme.terminal) := by
  cases read with
  | chainNil => exact absurd rfl filled
  | @chainSign _ _ _ _ _ s chain operand =>
    intro none
    refine none s ?_
    simp [chain.depthBehind_eq, operand.depthBehind_eq, Part.opened, outside, Lexeme.terminal]

/-- The sign of a sum is the one before its bound. -/
theorem Reads.summand_sign (read : Reads ls (.opening (.summand i lower upper))) :
    ¬NoSignOutside (ls.map Lexeme.terminal) := by
  cases read with
  | summand opening =>
    cases opening with
    | bound start inner =>
      intro none
      refine none .power ?_
      simp [start.depthBehind_eq, inner.depthBehind_eq, Part.opened, outside, Lexeme.terminal,
        Terminal.deepen]

/-- A whole expression without a sign outside its brackets is a single operand. -/
theorem Reads.single (read : Reads ls (.whole p)) (none : NoSignOutside (ls.map Lexeme.terminal)) :
    ∃ ending, Reads ls (.operand p ending) := by
  cases read with
  | @last cs c _ _ _ chain operand =>
    cases c with
    | nil =>
      obtain rfl := chain_nil chain
      exact ⟨_, operand⟩
    | cons =>
      refine absurd (fun s member => none s ?_) (chain.chain_sign nofun)
      simp [member]
  | lastSum chain opening =>
    refine absurd (fun s member => none s ?_) opening.summand_sign
    simp [chain.depthBehind_eq, Part.opened, member]

/-! Rows and how they are folded. -/

/-- Operands with signs between them. -/
structure Row (α : Type) where
  first : α
  rest : List (InfixSign × α)

namespace Row

/-- A row cut at the signs of a tier: the parts between these signs in a row of their own. -/
def cutAt (tier : Nat) (a : α) : List (InfixSign × α) → Row (Row α)
  | [] => ⟨⟨a, []⟩, []⟩
  | (s, b) :: rest =>
    let parts := cutAt tier b rest
    if s.tier = tier then ⟨⟨a, []⟩, (s, parts.first) :: parts.rest⟩
    else ⟨⟨a, (s, parts.first.first) :: parts.first.rest⟩, parts.rest⟩

theorem first_cutAt (tier : Nat) (a : α) (rest : List (InfixSign × α)) :
    (cutAt tier a rest).first.first = a := by
  cases rest with
  | nil => rfl
  | cons link rest =>
    simp only [cutAt]
    split <;> rfl

def cut (tier : Nat) (row : Row α) : Row (Row α) := cutAt tier row.first row.rest

/-- The parts of a row joined from the left, each as its own expression. -/
def joined (value : α → Expression) (row : Row α) : Expression :=
  row.rest.foldl (fun left link => .sign link.1 left (value link.2)) (value row.first)

/-- A row of powers. -/
def factor (row : Row Expression) : Expression := row.joined id

def term (row : Row Expression) : Expression := (row.cut 2).joined factor

/-- A row is a sum of terms, a term a product of factors, and a factor a row of powers. -/
def expression (row : Row Expression) : Expression := (row.cut 1).joined term

end Row

/-- The parts of a row behind an operand that waits at their sign. -/
def Tiers.attachRow (left : Option (Expression × InfixSign)) (first : Expression)
    (value : α → Expression) (rest : List (InfixSign × α)) : Expression :=
  rest.foldl (fun left link => .sign link.1 left (value link.2)) (attach left first)

namespace Tiers

variable (t : Tiers)

def factor (row : Row Expression) : Expression := attachRow t.powers row.first id row.rest

def term (row : Row Expression) : Expression :=
  attachRow t.products (t.factor (row.cut 2).first) Row.factor (row.cut 2).rest

/-- A row behind operands that wait. -/
def expression (row : Row Expression) : Expression :=
  attachRow t.sums (t.term (row.cut 1).first) Row.term (row.cut 1).rest

theorem expression_nil (e : Expression) : t.expression ⟨e, []⟩ = t.sum e := rfl

theorem expression_empty (row : Row Expression) : empty.expression row = row.expression := rfl

theorem expression_cons (e a : Expression) (s : InfixSign) (rest : List (InfixSign × Expression)) :
    t.expression ⟨e, (s, a) :: rest⟩ = (t.push e s).expression ⟨a, rest⟩ := by
  have sums := Row.first_cutAt 1 a rest
  have products := Row.first_cutAt 2 a (Row.cutAt 1 a rest).first.rest
  cases s with
  | power =>
    simp [expression, term, factor, Row.cut, Row.cutAt, InfixSign.tier, push, attachRow, attach, sums,
      products, power]
  | times | divide =>
    simp [expression, term, factor, Row.cut, Row.cutAt, InfixSign.tier, push, attachRow, attach, sums,
      products, power, product, Row.factor, Row.joined]
  | plus | minus =>
    simp [expression, term, factor, Row.cut, Row.cutAt, InfixSign.tier, push, attachRow, attach, sums,
      products, power, product, sum, Row.factor, Row.term, Row.joined]

end Tiers

theorem Chain.expr_join (c : Chain) (p : Phrase) : (c.join p).expr = c.tiers.sum p.expr := by
  cases c <;> rfl

/-! Texts of rows. -/

/-- Signs with an operand behind each. -/
inductive ReadsLinks : List Lexeme → List (InfixSign × Expression) → Prop where
  | nil : ReadsLinks [] []
  | cons : Reads ks (.operand p ending) → ReadsLinks ls rest →
      ReadsLinks (.sign s :: (ks ++ ls)) ((s, p.expr) :: rest)

/-- The chain grows operand by operand, and each sign pushes the operand before it. -/
theorem ReadsLinks.whole (links : ReadsLinks ls rest) {c : Chain} (chain : Reads cs (.chain c))
    (operand : Reads ks (.operand p ending)) :
    ∃ q, Reads (cs ++ ks ++ ls) (.whole q) ∧ q.expr = c.tiers.expression ⟨p.expr, rest⟩ := by
  induction links generalizing cs ks c p ending with
  | nil =>
    refine ⟨c.join p, by simpa using Reads.last chain operand, ?_⟩
    rw [Chain.expr_join, Tiers.expression_nil]
  | @cons _ _ _ _ _ s next _ ih =>
    obtain ⟨q, read, value⟩ := ih (.chainSign (s := s) chain operand) next
    refine ⟨q, by simpa using read, ?_⟩
    rw [value, Tiers.expression_cons]
    rfl

theorem Reads.whole_not_index (read : Reads ls (.whole p)) : ls.head? ≠ some .index := by
  intro mark
  obtain ⟨ks, rfl⟩ := List.head?_eq_some_iff.mp mark
  obtain ⟨site, q, ending, run, -⟩ := read.run (.atStart .formula []) rfl
  cases run with
  | cons step => exact nomatch step 0

theorem parts_sign (s : InfixSign) : Parts s.character := by
  cases s <;> (unfold Parts; decide)

/-- An infix sign between two texts, with or without blanks around it. -/
theorem Lexes.infix {blanks blanks' : List Char} (left : Lexes u ks) (right : Lexes v ms)
    (notIndex : ms.head? ≠ some .index) (s : InfixSign) (before : ∀ c ∈ blanks, isBlank c = true)
    (after : ∀ c ∈ blanks', isBlank c = true) :
    Lexes (u ++ (blanks ++ s.character :: (blanks' ++ v))) (ks ++ .sign s :: ms) := by
  obtain ⟨b, scans⟩ := right
  obtain ⟨b', behind⟩ := Scans.insert (u := []) after .done scans (by simp) notIndex
  obtain ⟨b₁, front⟩ := left.before (parts_sign s) (blanks' ++ v)
  have sign : Scans b₁ (s.character :: (blanks' ++ v)) (.sign s :: ms) b' [] :=
    .lexeme trivial trivial nofun rfl behind
  refine Scans.insert before front sign (fun f last => ?_) nofun
  exact left.last_not_callee _ last f rfl

theorem lexes_letter (letter : isLetter a = true) : Lexes [a] [.scalar a] :=
  ⟨false, .lexeme letter (by simp [Lexeme.EndsBefore]) nofun rfl .done⟩

/-- A text that is read as one operand: anything that the grammar can index, or has indexed, save for a
sum. -/
structure OperandText where
  text : List Char
  value : Expression
  oneLine : '\n' ∉ text
  read : parseExpression text = .ok value
  single : ∃ ls, Lexes text ls ∧ Category.Derives .indexed ls ∧ ls.head? ≠ some (.symbol .sum)

theorem OperandText.reads (operand : OperandText) : ∃ ks p ending, Lexes operand.text ks ∧
    Reads ks (.operand p ending) ∧ p.expr = operand.value := by
  obtain ⟨ks, p, lexes, read, value⟩ := Lexes.of_oneLine operand.oneLine operand.read
  obtain ⟨ls, lexes', word, notSum⟩ := operand.single
  obtain rfl := lexes.unique lexes'
  have notSum' : (ks.map Lexeme.terminal).head? ≠ some .sum := by
    intro first
    obtain ⟨l, last, same⟩ := Option.map_eq_some_iff.mp (List.head?_map ▸ first)
    obtain rfl : l = .symbol .sum := Lexeme.covered same
    exact notSum last
  obtain ⟨ending, operand⟩ := read.single (word.bracketed.2.2 (by simp [Category.Single]) notSum')
  exact ⟨ks, p, ending, lexes, operand, value⟩

/-- A sign and the operand behind it, as they are written. -/
structure Link where
  before : List Char
  sign : InfixSign
  after : List Char
  operand : OperandText
  blankBefore : ∀ c ∈ before, isBlank c = true
  blankAfter : ∀ c ∈ after, isBlank c = true

def rowText (first : OperandText) : List Link → List Char
  | [] => first.text
  | l :: links => first.text ++ (l.before ++ l.sign.character :: (l.after ++ rowText l.operand links))

def rowOf (first : OperandText) (links : List Link) : Row Expression :=
  ⟨first.value, links.map fun l => (l.sign, l.operand.value)⟩

theorem rowText_reads (first : OperandText) (links : List Link) : ∃ ks ls p ending,
    Lexes (rowText first links) (ks ++ ls) ∧ Reads ks (.operand p ending) ∧ p.expr = first.value ∧
      ReadsLinks ls (rowOf first links).rest := by
  induction links generalizing first with
  | nil =>
    obtain ⟨ks, p, ending, lexes, operand, value⟩ := first.reads
    exact ⟨ks, [], p, ending, by simpa [rowText] using lexes, operand, value, .nil⟩
  | cons l links ih =>
    obtain ⟨ks, p, ending, lexes, operand, value⟩ := first.reads
    obtain ⟨ms, ls, q, ending', lexes', next, value', rest⟩ := ih l.operand
    obtain ⟨r, whole, -⟩ := rest.whole .chainNil next
    have row := lexes.infix lexes' (Reads.whole_not_index whole) l.sign l.blankBefore l.blankAfter
    have behind : ReadsLinks (.sign l.sign :: (ms ++ ls)) ((l.sign, q.expr) :: (rowOf l.operand links).rest) :=
      .cons next rest
    rw [value'] at behind
    exact ⟨ks, _, p, ending, row, operand, value, behind⟩

/-- A row of operands is read as it is folded, however long it is and whatever signs stand in it. -/
theorem parseExpression_row (first : OperandText) (links : List Link) :
    parseExpression (rowText first links) = .ok (rowOf first links).expression := by
  obtain ⟨ks, ls, p, ending, lexes, operand, value, rest⟩ := rowText_reads first links
  obtain ⟨q, whole, same⟩ := rest.whole .chainNil operand
  refine (parseExpression_ok_iff _ _).mpr ⟨0, _, 0, q, by simpa [newlines] using lexes, whole, ?_⟩
  rw [same, value]
  exact Tiers.expression_empty _

def OperandText.letter (letter : isLetter a = true) : OperandText where
  text := [a]
  value := .variable (.scalar a)
  oneLine := by
    intro member
    obtain rfl := List.mem_singleton.mp member
    cases letter.symm.trans parts_newline.isLetter
  read := (parseExpression_ok_iff _ _).mpr ⟨0, _, 0, _, lexes_letter letter, Reads.identifier.alone, rfl⟩
  single := ⟨_, lexes_letter letter, (Reads.identifier (i := .scalar a)).derives.1, nofun⟩

/-- Whatever is read is one operand in parentheses. -/
def OperandText.parenthesised {e : List Char} (oneLine : '\n' ∉ e) (ok : parseExpression e = .ok x) :
    OperandText where
  text := '(' :: (e ++ [')'])
  value := x
  oneLine := by simpa using oneLine
  read := parseExpression_parenthesised oneLine ok
  single := by
    obtain ⟨ks, p, lexes, read, -⟩ := Lexes.of_oneLine oneLine ok
    have operand := Reads.parenthesised .group read
    exact ⟨_, ⟨false, lexes.enclosed false []⟩, operand.derives.1, nofun⟩

/-- Products come before differences, and differences are taken from the left. -/
theorem parseExpression_difference :
    parseExpression "a-b*(x-y) - c".toList = .ok (.sign .minus
      (.sign .minus (.variable (.scalar 'a'))
        (.sign .times (.variable (.scalar 'b'))
          (.sign .minus (.variable (.scalar 'x')) (.variable (.scalar 'y')))))
      (.variable (.scalar 'c'))) :=
  parseExpression_row (.letter (a := 'a') rfl)
    [⟨[], .minus, [], .letter (a := 'b') rfl, nofun, nofun⟩,
      ⟨[], .times, [], .parenthesised (e := "x-y".toList) (by decide) rfl, nofun, nofun⟩,
      ⟨[' '], .minus, [' '], .letter (a := 'c') rfl, List.forall_mem_singleton.mpr rfl,
        List.forall_mem_singleton.mpr rfl⟩]

end Formulary
