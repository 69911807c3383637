import Formulary.Proofs.Rows

/-! The summand of a sum. Behind the header of a sum everything up to the end of the expression is its
summand, so that a sum behind a sign is read as if it stood in parentheses. -/
namespace Formulary

/-! Headers. -/

/-- A sum up to its summand, as it is written. -/
def sumHeaderText (i : Identifier) (start bound : List Char) : List Char :=
  (Lexeme.symbol .sum).text ++ ['{'] ++ i.text ++ ['='] ++ start ++ ['}', '^', '{'] ++ bound ++ ['}']

structure SumHeader where
  id : Identifier
  start : ExpressionText
  bound : ExpressionText
  named : id.WellFormed

namespace SumHeader

def text (h : SumHeader) : List Char := sumHeaderText h.id h.start.text h.bound.text

/-- The sum that the header opens. -/
def sum (h : SumHeader) (summand : Expression) : Expression :=
  .sum h.id h.start.value h.bound.value summand

end SumHeader

theorem Delimited.braced (first : Delimited u ls) (lexes : Lexes e ks) :
    Delimited (u ++ e ++ ['}']) (ls ++ ks ++ [.rightBrace]) := by
  intro b z
  simpa using (first b _).trans (lexes.braced z)

theorem SumHeader.opens (h : SumHeader) : ∃ os a b, Delimited h.text os ∧
    Reads os (.opening (.summand h.id a b)) ∧ a = h.start.value ∧ b = h.bound.value := by
  obtain ⟨ks, p, startLexes, start, lower⟩ := h.start.reads
  obtain ⟨ms, q, boundLexes, bound, upper⟩ := h.bound.reads
  have name := ((Delimited.symbol .sum).before h.named.bare).follow .equals rfl
  have caret : Delimited ['^', '{'] [.sign .power, .leftBrace] :=
    (Delimited.single (.sign .power) trivial (fun _ => trivial) nofun).append .leftBrace
  have text := ((name.braced startLexes).append caret).braced boundLexes
  have opening := ((Reads.start (i := h.id)).bound start).summand bound
  refine ⟨_, _, _, ?_, opening, lower, upper⟩
  simpa [SumHeader.text, sumHeaderText, Lexeme.text] using text

/-! Sums behind a sign. -/

/-- An open sum takes in all that stands behind it, in whatever summand the sign stands, and parentheses
around it close nothing else. -/
theorem Reads.sum_behind (left : Reads ls (.whole p)) (opening : Reads os (.opening (.summand i a b)))
    (summand : Reads ks (.whole q)) (s : InfixSign) :
    ∃ r, Reads (ls ++ .sign s :: (os ++ ks)) (.whole r) ∧
      Reads (ls ++ .sign s :: .leftParen :: (os ++ ks ++ [.rightParen])) (.whole r) := by
  generalize whole : Part.whole p = part at left
  induction left generalizing p with
  | @last _ c _ o _ chain operand =>
    have before := chain.chainSign operand (s := s)
    have sum : Reads (os ++ ks) (.whole (.plain (.sum i a b q.expr))) := .lastSum .chainNil opening summand
    have grouped : Reads (.leftParen :: (os ++ ks ++ [.rightParen]))
        (.operand (.plain (.sum i a b q.expr)) .plain) := .parenthesised .group sum
    refine ⟨Chain.join ((o.expr, s) :: c) (.plain (.sum i a b q.expr)), ?_, ?_⟩
    · simpa using before.lastSum opening summand
    · simpa using before.last grouped
  | @lastSum _ c _ i₀ a₀ b₀ _ _ chain outer _ _ _ inner =>
    obtain ⟨r, bare, parenthesised⟩ := inner rfl
    refine ⟨c.join (.plain (.sum i₀ a₀ b₀ r.expr)), ?_, ?_⟩
    · simpa using chain.lastSum outer bare
    · simpa using chain.lastSum outer parenthesised
  | _ => cases whole

/-! Texts. -/

theorem parseExpression_of_reads (lexes : Lexes u ks) (read : Reads ks (.whole p)) :
    parseExpression u = .ok p.expr :=
  (parseExpression_ok_iff _ _).mpr ⟨0, ks, 0, p, by simpa [newlines] using lexes, read, rfl⟩

theorem SumHeader.reads (h : SumHeader) (e : ExpressionText) : ∃ os a b ks q, Lexes (h.text ++ e.text) (os ++ ks) ∧
    Reads os (.opening (.summand h.id a b)) ∧ Reads ks (.whole q) ∧ .sum h.id a b q.expr = h.sum e.value := by
  obtain ⟨os, a, b, header, opening, lower, upper⟩ := h.opens
  obtain ⟨ks, q, ⟨last, scans⟩, summand, value⟩ := e.reads
  have front := header false e.text
  refine ⟨os, a, b, ks, q, ⟨last, front.trans scans⟩, opening, summand, ?_⟩
  rw [lower, upper, value]
  rfl

/-- Everything from the header of a sum to the end of the expression is its summand, however loosely it
binds, and however tightly the sign in front of the sum binds. -/
theorem summand_is_greedy (h : SumHeader) (e : ExpressionText) :
    parseExpression (h.text ++ e.text) = .ok (h.sum e.value) ∧
    ∀ (l : ExpressionText) (s : InfixSign), ∃ r,
      parseExpression (l.text ++ s.character :: (h.text ++ e.text)) = .ok r ∧
        parseExpression (l.text ++ s.character :: '(' :: (h.text ++ e.text ++ [')'])) = .ok r := by
  obtain ⟨os, a, b, ks, q, lexes, opening, summand, sum⟩ := h.reads e
  constructor
  · have whole : Reads (os ++ ks) (.whole (.plain (.sum h.id a b q.expr))) :=
      .lastSum .chainNil opening summand
    rw [← sum]
    exact parseExpression_of_reads lexes whole
  · intro l s
    obtain ⟨ls, p, left, before, -⟩ := l.reads
    obtain ⟨r, bare, parenthesised⟩ := before.sum_behind opening summand s
    have grouped : Lexes ('(' :: (h.text ++ e.text ++ [')'])) (.leftParen :: (os ++ ks ++ [.rightParen])) :=
      ⟨false, lexes.enclosed false []⟩
    have first : (os ++ ks).head? ≠ some .index :=
      (Reads.lastSum .chainNil opening summand).whole_not_index
    have none : ∀ c ∈ ([] : List Char), isBlank c = true := nofun
    refine ⟨r.expr, parseExpression_of_reads ?_ bare, parseExpression_of_reads ?_ parenthesised⟩
    · exact left.infix lexes first s none none
    · exact left.infix grouped nofun s none none

/-- The sum from one to `n`, as a header. -/
def sumToN : SumHeader where
  id := .scalar 'i'
  start := ⟨['1'], .number (numberValue ['1'] []), by decide, rfl⟩
  bound := ⟨['n'], .variable (.scalar 'n'), by decide, rfl⟩
  named := rfl

/-- Neither does the `+` end the summand, nor does the `^` stop in front of it. -/
theorem summand_is_greedy_behind_power :
    parseExpression (sumToN.text ++ "i+1".toList) = .ok (sumToN.sum
      (.sign .plus (.variable (.scalar 'i')) (.number (numberValue ['1'] [])))) ∧
    ∃ r, parseExpression ('x' :: '^' :: (sumToN.text ++ "i+1".toList)) = .ok r ∧
      parseExpression ('x' :: '^' :: '(' :: (sumToN.text ++ "i+1".toList ++ [')'])) = .ok r :=
  have greedy := summand_is_greedy sumToN ⟨"i+1".toList, _, by decide, rfl⟩
  ⟨greedy.1, greedy.2 ⟨['x'], _, by decide, rfl⟩ .power⟩

/-- The bounds of a sum stand on its line, though a line break in front of an expression alone is
accepted. -/
theorem start_on_next_line_refused : ¬ ∀ (i : Identifier) (start bound e : List Char) (a b x : Expression),
    i.WellFormed → '\n' ∉ e → parseExpression start = .ok a → parseExpression bound = .ok b →
      parseExpression e = .ok x → parseExpression (sumHeaderText i start bound ++ e) = .ok (.sum i a b x) := by
  intro claim
  have accepted := claim (.scalar 'i') ['\n', '1'] ['2'] ['x'] _ _ _ rfl (by decide) rfl rfl rfl
  have refused : ∃ r, parseExpression (sumHeaderText (.scalar 'i') ['\n', '1'] ['2'] ++ ['x']) = .error r :=
    ⟨_, rfl⟩
  obtain ⟨r, error⟩ := refused
  cases accepted.symm.trans error

end Formulary
