import Formulary.Proofs.Derivations
import Mathlib.Data.List.DropRight

/-! The texts that are read as an expression are those whose lexemes the grammar derives. -/
namespace Formulary

/-- Letters counted as names where nothing else can stand, behind the brace of a vector or a sum, even
with a parenthesis behind them. -/
def asNames : List Lexeme → List Lexeme
  | .symbol .vec :: .leftBrace :: .callee c :: ls =>
    .symbol .vec :: .leftBrace :: .scalar c :: asNames ls
  | .symbol .sum :: .leftBrace :: .callee c :: ls =>
    .symbol .sum :: .leftBrace :: .scalar c :: asNames ls
  | l :: ls => l :: asNames ls
  | [] => []

def trimNewlines (ts : List Terminal) : List Terminal :=
  (ts.dropWhile (· = .newline)).rdropWhile (· = .newline)

theorem asNames_cases (ls : List Lexeme) :
    asNames ls = ls ∨ ∃ us us' mark c vs, (mark = .symbol .vec ∨ mark = .symbol .sum) ∧
      ls = us ++ mark :: .leftBrace :: .callee c :: vs ∧
        asNames ls = us' ++ .scalar c :: asNames vs := by
  fun_induction asNames ls with
  | case1 c ls _ =>
    exact .inr ⟨[], [.symbol .vec, .leftBrace], _, c, ls, .inl rfl, rfl, rfl⟩
  | case2 c ls _ =>
    exact .inr ⟨[], [.symbol .sum, .leftBrace], _, c, ls, .inr rfl, rfl, rfl⟩
  | case3 l ls _ _ ih =>
    rcases ih with same | ⟨us, us', mark, c, vs, kind, rfl, names⟩
    · exact .inl (by rw [same])
    · exact .inr ⟨l :: us, l :: us', mark, c, vs, kind, rfl, by rw [names]; rfl⟩
  | case4 => exact .inl rfl

/-! Lexemes that no state takes in a row. -/

/-- A name is never called. -/
theorem take_scalar_paren {s t : State} (taken : s.take offset (.scalar c) = .ok t)
    (offset' : Nat) : t.take offset' .leftParen = .error t := by
  cases s with
  | fresh goal done afterNewline => cases taken; rfl
  | inside site focus =>
    cases focus with
    | operand | sumName => cases taken; rfl
    | vecName use => cases taken; cases use <;> rfl
    | whole => exact nomatch feedWhole_follows (elim_ok taken)
    | vecClose use => cases use <;> cases taken
    | _ => cases taken
  | ended => cases taken
  | sealed => cases taken

theorem wantsName_of_mark {s t u : State} (mark : l = .symbol .vec ∨ l = .symbol .sum)
    (first : s.take offset l = .ok t) (second : t.take offset' .leftBrace = .ok u) :
    u.wantsName = true := by
  rcases mark with rfl | rfl
  · obtain ⟨site, use, rfl⟩ := take_vec first
    cases second
    rfl
  · obtain ⟨site, rfl⟩ := take_sum first
    cases second
    rfl

theorem not_takes_named_call {s t : State} {ps : List Placed}
    (mark : l = .symbol .vec ∨ l = .symbol .sum) (taken : s.takePieces ps = .ok t)
    (pieces : ps.map (·.piece) = [l, .leftBrace, .callee c, .leftParen].map .lexeme) : False := by
  obtain ⟨s₁, o₁, ps₁, first, pieces₁, taken₁⟩ := takePieces_cons_ok taken pieces
  obtain ⟨s₂, o₂, ps₂, second, pieces₂, taken₂⟩ := takePieces_cons_ok taken₁ pieces₁
  obtain ⟨s₃, o₃, ps₃, third, pieces₃, taken₃⟩ := takePieces_cons_ok taken₂ pieces₂
  obtain ⟨s₄, o₄, ps₄, fourth, -, -⟩ := takePieces_cons_ok taken₃ pieces₃
  rw [take_callee_name (wantsName_of_mark mark first second) third] at fourth
  cases fourth

theorem not_takes_called_name {s t : State} {ps : List Placed} (taken : s.takePieces ps = .ok t)
    (pieces : ps.map (·.piece) = [Lexeme.scalar c, .leftParen].map .lexeme) : False := by
  obtain ⟨s₁, o₁, ps₁, first, pieces₁, taken₁⟩ := takePieces_cons_ok taken pieces
  obtain ⟨s₂, o₂, ps₂, second, -, -⟩ := takePieces_cons_ok taken₁ pieces₁
  rw [take_scalar_paren first] at second
  cases second

/-- Where every callee stands before a parenthesis, lexemes that can be read have no letter that counts
as a name instead. -/
theorem asNames_eq_self {s t : State} {ps : List Placed}
    (callees : ∀ us f vs, ls = us ++ .callee f :: vs → vs.head? = some .leftParen)
    (taken : s.takePieces ps = .ok t)
    (pieces : ps.map (·.piece) = ls.map .lexeme ∨ ps.map (·.piece) = (asNames ls).map .lexeme) :
    asNames ls = ls := by
  rcases asNames_cases ls with same | ⟨us, us', mark, c, vs, kind, rfl, names⟩
  · exact same
  · obtain ⟨ws, rfl⟩ : ∃ ws, vs = .leftParen :: ws :=
      List.head?_eq_some_iff.mp (callees (us ++ [mark, .leftBrace]) c vs (by simp))
    rcases pieces with pieces | pieces
    · have split : us ++ mark :: .leftBrace :: .callee c :: .leftParen :: ws =
          us ++ [mark, .leftBrace, .callee c, .leftParen] ++ ws := by simp
      rw [split] at pieces
      obtain ⟨s', t', qs, found, run⟩ := takePieces_mid taken pieces
      exact (not_takes_named_call kind run found).elim
    · have split : us' ++ .scalar c :: asNames (.leftParen :: ws) =
          us' ++ [.scalar c, .leftParen] ++ asNames ws := by simp [asNames]
      rw [names, split] at pieces
      obtain ⟨s', t', qs, found, run⟩ := takePieces_mid taken pieces
      exact (not_takes_called_name run found).elim

theorem Lexes.callees (read : Lexes text ls) (us : List Lexeme) (f : Char) (vs : List Lexeme)
    (split : ls = us ++ .callee f :: vs) : vs.head? = some .leftParen := by
  obtain ⟨b, scans⟩ := read
  rw [split] at scans
  obtain ⟨b', middle, -, last⟩ := scans.cut
  exact last.callee_next

/-! Newlines around an expression. -/

theorem Reads.whole_ne_nil (read : Reads ls (.whole p)) : ls ≠ [] := by
  rintro rfl
  obtain ⟨site, q, ending, run, -⟩ := read.run (.atStart .formula []) rfl
  cases run

theorem terminal_newline_iff {l : Lexeme} : l.terminal = .newline ↔ l = .newline :=
  ⟨Lexeme.covered, fun same => same ▸ rfl⟩

theorem trimNewlines_spec (ls : List Lexeme) : ∃ n ks m,
    ls = newlines n ++ ks ++ newlines m ∧
      trimNewlines (ls.map Lexeme.terminal) = ks.map Lexeme.terminal := by
  let p : Lexeme → Bool := fun l => l.terminal = .newline
  have all : ∀ ks : List Lexeme, (∀ l ∈ ks, p l = true) → newlines ks.length = ks := by
    intro ks only
    exact (List.eq_replicate_iff.mpr
      ⟨rfl, fun l member => terminal_newline_iff.mp (of_decide_eq_true (only l member))⟩).symm
  let rest := ls.dropWhile p
  refine ⟨(ls.takeWhile p).length, rest.rdropWhile p, (rest.rtakeWhile p).length, ?_, ?_⟩
  · have front := all (ls.takeWhile p) fun l => mem_takeWhile
    have back := all (rest.rtakeWhile p) fun l => List.mem_rtakeWhile_imp
    rw [front, back, List.append_assoc, List.rdropWhile_append_rtakeWhile]
    exact List.takeWhile_append_dropWhile.symm
  · simp only [trimNewlines, List.rdropWhile, List.dropWhile_map, ← List.map_reverse]
    rfl

theorem trimNewlines_newlines (read : Reads ks (.whole p)) (n m : Nat) :
    trimNewlines ((newlines n ++ ks ++ newlines m).map Lexeme.terminal) =
      ks.map Lexeme.terminal := by
  have inside : ∀ t ∈ ks.map Lexeme.terminal, decide (t = .newline) = false := by
    intro t member
    obtain ⟨l, found, rfl⟩ := List.mem_map.mp member
    refine decide_eq_false fun newline => ?_
    exact read.no_newline (terminal_newline_iff.mp newline ▸ found)
  have nonempty : ks.map Lexeme.terminal ≠ [] := by simpa using read.whole_ne_nil
  rw [List.map_append, List.map_append]
  generalize ks.map Lexeme.terminal = word at inside nonempty
  have around : ∀ n, ∀ t ∈ (newlines n).map Lexeme.terminal, decide (t = .newline) = true := by
    simp [newlines, Lexeme.terminal]
  have first : ∀ t ∈ (word ++ (newlines m).map Lexeme.terminal).head?, decide (t = .newline) = false := by
    obtain ⟨w, ws, rfl⟩ := List.exists_cons_of_ne_nil nonempty
    simpa using inside w
  have last : ∀ t ∈ word.reverse.head?, decide (t = .newline) = false := by
    intro t found
    exact inside t (List.mem_reverse.mp (List.mem_of_mem_head? found))
  have behind : ∀ t ∈ ((newlines m).map Lexeme.terminal).reverse, decide (t = .newline) = true := by
    intro t member
    exact around m t (List.mem_reverse.mp member)
  rw [trimNewlines, List.append_assoc, dropWhile_append_stop (around n) first, List.rdropWhile,
    List.reverse_append, dropWhile_append_stop behind last, List.reverse_reverse]

/-- Every text that the grammar derives is read, and no other. -/
theorem parseExpression_iff_derivable (text : List Char) :
    (∃ e, parseExpression text = .ok e) ↔ ∃ ls, Lexes text ls ∧
      trimNewlines ((asNames ls).map Lexeme.terminal) ∈ expressionGrammar.language := by
  constructor
  · rintro ⟨e, ok⟩
    obtain ⟨n, ks, m, p, lexes, read, -⟩ := (parseExpression_ok_iff text e).mp ok
    have whole : ReadsText .formula (newlines n ++ ks ++ newlines m) _ :=
      .single nofun (.expression read)
    obtain ⟨t, clauses, taken, -, -⟩ := whole.run ((scan_eq_lexemes_iff text _).mpr lexes)
    have names := asNames_eq_self (Lexes.callees lexes) taken
      (.inl ((scan_eq_lexemes_iff text _).mpr lexes))
    refine ⟨_, lexes, ?_⟩
    rw [names, trimNewlines_newlines read]
    exact read.derives
  · rintro ⟨ls, lexes, word⟩
    obtain ⟨n, ks, m, split, trimmed⟩ := trimNewlines_spec (asNames ls)
    rw [trimmed] at word
    obtain ⟨p, read⟩ := (exists_reads_iff ks).mpr word
    obtain ⟨ps, placed⟩ : ∃ ps : List Placed, ps.map (·.piece) = (asNames ls).map .lexeme :=
      ⟨(asNames ls).map fun l => ⟨.lexeme l, 0⟩, by simp⟩
    have whole : ReadsText .formula (newlines n ++ ks ++ newlines m) _ :=
      .single nofun (.expression read)
    rw [← split] at whole
    obtain ⟨t, clauses, taken, -, -⟩ := whole.run placed
    have names := asNames_eq_self (Lexes.callees lexes) taken (.inr placed)
    rw [← names, split] at lexes
    exact ⟨p.expr, (parseExpression_ok_iff text _).mpr ⟨n, ks, m, p, lexes, read, rfl⟩⟩

end Formulary
