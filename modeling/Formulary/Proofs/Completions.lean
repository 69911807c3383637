import Formulary.Proofs.Faults
import Formulary.Proofs.Joining

/-! What has been taken can be completed. Every construct, operand and statement that the reader stands in
is ended by a few lexemes that fit anywhere, so no fault is found behind the place from which the text
could not go on. -/
namespace Formulary

/-! Lexemes that complete. -/

namespace Lexeme

def zero : Lexeme := .number ['0'] []

/-- Enough lexemes to complete anything. -/
def fillers : List Lexeme :=
  [.zero, .scalar 'a', .equals, .newline, .endMark, .leftParen, .rightParen, .leftBrace, .rightBrace,
    .sign .power]

/-- A lexeme that may stand between any two blanks. -/
structure Loose (l : Lexeme) : Prop where
  spelt : l.Spelt
  notCallee : ∀ f, l ≠ .callee f
  notIndex : l ≠ .index

theorem loose_of_mem_fillers {l : Lexeme} (member : l ∈ fillers) : l.Loose := by
  simp only [fillers, List.mem_cons, List.not_mem_nil, or_false] at member
  rcases member with rfl | rfl | rfl | rfl | rfl | rfl | rfl | rfl | rfl | rfl
  · have digit : isDigit '0' = true := by decide
    exact ⟨⟨List.cons_ne_nil _ _, by simpa using digit⟩, nofun, nofun⟩
  · exact ⟨show isLetter 'a' = true by decide, nofun, nofun⟩
  all_goals exact ⟨trivial, nofun, nofun⟩

end Lexeme

variable {ls ks us cs : List Lexeme} {p : Phrase}

/-- Whatever operands stand before them, the lexemes end an expression. -/
def Ends (ls : List Lexeme) : Prop :=
  ∀ cs c, Reads cs (.chain c) → ∃ p, Reads (cs ++ ls) (.whole p)

theorem Ends.of_operand (read : Reads ls (.operand p ending)) : Ends ls := by
  intro cs c chain
  exact ⟨_, .last chain read⟩

theorem Ends.of_sum (opening : Reads ls (.opening (.summand i a b))) (summand : Reads ks (.whole p)) :
    Ends (ls ++ ks) := by
  intro cs c chain
  have whole := Reads.lastSum chain opening summand
  rw [List.append_assoc] at whole
  exact ⟨_, whole⟩

theorem ends_zero : Ends [.zero] :=
  .of_operand .number

theorem Ends.whole (ends : Ends ls) : ∃ p, Reads ls (.whole p) :=
  ends [] [] .chainNil

/-- Lexemes that end an expression with some more behind them. -/
def Fillable (ls : List Lexeme) : Prop :=
  ∃ us ⊆ Lexeme.fillers, Ends (ls ++ us)

namespace Fillable

theorem of_ends (ends : Ends ls) : Fillable ls :=
  ⟨[], List.nil_subset _, by rwa [List.append_nil]⟩

theorem of_append (ks : List Lexeme) (fill : ks ⊆ Lexeme.fillers) (fillable : Fillable (ls ++ ks)) :
    Fillable ls := by
  obtain ⟨us, later, ends⟩ := fillable
  refine ⟨ks ++ us, List.append_subset.mpr ⟨fill, later⟩, ?_⟩
  rwa [← List.append_assoc]

theorem of_operand (ks : List Lexeme) (fill : ks ⊆ Lexeme.fillers)
    (read : Reads (ls ++ ks) (.operand p ending)) : Fillable ls := by
  apply of_append ks fill
  exact of_ends (Ends.of_operand read)

/-- A symbol is given as many zeros as it has operands to come. -/
theorem operands (opening : Reads ls (.opening (.operand a))) (first : Reads ks (.whole p)) :
    Fillable (ls ++ ks) := by
  -- An operand that is supplied leaves one fewer that is due.
  induction due : a.due generalizing a ls ks p with
  | zero => cases a <;> cases due
  | succ n ih =>
    cases supplied : a.supply p.expr with
    | inr e =>
      have applied := Reads.applied opening first supplied
      exact of_operand [.rightBrace] (by decide) applied
    | inl a' =>
      have next := Reads.supply opening first supplied
      have fewer : a'.due = n := by
        have one := Application.due_of_inl supplied
        omega
      obtain ⟨q, zero⟩ := ends_zero.whole
      apply of_append [.rightBrace, .leftBrace, .zero] (by decide)
      simpa using ih next zero fewer

theorem bound (opening : Reads ls (.opening (.bound i a))) (upper : Reads ks (.whole p)) :
    Fillable (ls ++ ks) := by
  obtain ⟨q, zero⟩ := ends_zero.whole
  have sum := Ends.of_sum (.summand opening upper) zero
  apply of_append [.rightBrace, .zero] (by decide)
  simpa using of_ends sum

theorem start (opening : Reads ls (.opening (.start i))) (lower : Reads ks (.whole p)) :
    Fillable (ls ++ ks) := by
  obtain ⟨q, zero⟩ := ends_zero.whole
  have sum := bound (.bound opening lower) zero
  apply of_append [.rightBrace, .sign .power, .leftBrace, .zero] (by decide)
  simpa using sum

/-- Whatever construct is open, a whole expression inside it can be followed to its end. -/
theorem close (opening : Reads ls (.opening f)) (inner : Reads ks (.whole p)) :
    Fillable (ls ++ ks) := by
  cases f with
  | group =>
    exact of_operand [.rightParen] (by decide) (.parenthesised opening inner)
  | second a =>
    exact of_operand [.rightParen] (by decide) (.pair opening inner)
  | later a b others =>
    exact of_operand [.rightParen] (by decide) (.vector opening inner)
  | argument f =>
    exact of_operand [.rightParen] (by decide) (.call opening inner)
  | subscript base =>
    exact of_operand [.rightBrace] (by decide) (.indexed opening inner)
  | operand a => exact operands opening inner
  | start i => exact start opening inner
  | bound i a => exact bound opening inner
  | summand i a b => exact of_ends (Ends.of_sum opening inner)

/-- Lexemes that open a construct with some more behind them. -/
theorem of_opening (ks : List Lexeme) (fill : ks ⊆ Lexeme.fillers)
    (opening : Reads (ls ++ ks) (.opening f)) : Fillable ls := by
  obtain ⟨q, zero⟩ := ends_zero.whole
  apply of_append ks fill
  apply of_append [.zero] (by decide)
  exact close opening zero

end Fillable

/-- The start of an operand, as far as it goes, can be followed to its end. -/
theorem Leads.fillable (leads : Leads ls focus) : Fillable ls := by
  cases focus with
  | operand =>
    cases leads
    exact .of_append [.zero] (by decide) (.of_ends ends_zero)
  | value p ending => exact .of_ends (.of_operand leads)
  | whole => exact leads.elim
  | callParen f =>
    cases leads
    exact .of_opening [.leftParen] (by decide) .argument
  | vecBrace use =>
    rcases use with _ | _
    · cases leads
      exact .of_operand [.leftBrace, .scalar 'a', .rightBrace] (by decide)
        (Reads.identifier (i := .vector 'a'))
    · cases leads
      exact .of_opening [.leftBrace, .scalar 'a', .rightBrace, .equals] (by decide)
        (Reads.start (i := .vector 'a'))
  | vecName use =>
    rcases use with _ | _
    · cases leads
      exact .of_operand [.scalar 'a', .rightBrace] (by decide)
        (Reads.identifier (i := .vector 'a'))
    · cases leads
      exact .of_opening [.scalar 'a', .rightBrace, .equals] (by decide)
        (Reads.start (i := .vector 'a'))
  | vecClose use c =>
    rcases use with _ | _
    · cases leads
      exact .of_operand [.rightBrace] (by decide) (Reads.identifier (i := .vector c))
    · cases leads
      exact .of_opening [.rightBrace, .equals] (by decide) (Reads.start (i := .vector c))
  | operandBrace a first => exact .of_opening [.leftBrace] (by decide) leads
  | sumBrace =>
    cases leads
    exact .of_opening [.leftBrace, .scalar 'a', .equals] (by decide)
      (Reads.start (i := .scalar 'a'))
  | sumName =>
    cases leads
    exact .of_opening [.scalar 'a', .equals] (by decide) (Reads.start (i := .scalar 'a'))
  | sumEquals i =>
    cases leads
    exact .of_opening [.equals] (by decide) .start
  | sumCaret i a => exact .of_opening [.sign .power, .leftBrace] (by decide) leads
  | sumBound i a => exact .of_opening [.leftBrace] (by decide) leads

/-! Sites and states. -/

/-- The constructs are closed from the innermost one outwards. -/
theorem Stacks.complete (stack : Stacks frames c ls) (fillable : Fillable ks) :
    ∃ us ⊆ Lexeme.fillers, ∃ p, Reads (ls ++ ks ++ us) (.whole p) := by
  induction stack generalizing ks with
  | base chain =>
    obtain ⟨us, fill, ends⟩ := fillable
    obtain ⟨p, whole⟩ := ends _ _ chain
    exact ⟨us, fill, p, by rwa [List.append_assoc]⟩
  | @frame frames outer ls opened f cs c stack opening chain ih =>
    obtain ⟨us, fill, ends⟩ := fillable
    obtain ⟨p, whole⟩ := ends _ _ chain
    obtain ⟨vs, fill', q, all⟩ := ih (.close opening whole)
    refine ⟨us ++ vs, List.append_subset.mpr ⟨fill, fill'⟩, q, ?_⟩
    simpa using all

theorem SiteReads.complete (held : SiteReads goal site ls) (fillable : Fillable ks) :
    ∃ us ⊆ Lexeme.fillers, ∃ as bs clause, ls ++ ks ++ us = as ++ bs ∧
      ReadsDone goal site.done as ∧ ReadsClause goal bs clause := by
  obtain ⟨_, _, root, _, _⟩ := site
  obtain ⟨-, as, rs, ms, rfl, done, before, stack⟩ := held
  obtain ⟨us, fill, p, whole⟩ := stack.complete fillable
  cases before with
  | first => exact ⟨us, fill, as, ms ++ ks ++ us, _, by simp, done, .expression whole⟩
  | @body ls q equals declares head =>
    have read : ReadsClause goal _ (.declaration q.head equals p.expr) :=
      .declaration declares head whole
    exact ⟨us, fill, as, ls ++ [.equals] ++ (ms ++ ks ++ us), _, by simp, done, read⟩

/-- The statement that the reader stands in is completed, and the text ends behind it. -/
theorem SiteReads.completeText (held : SiteReads goal site ls) (fillable : Fillable ks) :
    ∃ us ⊆ Lexeme.fillers, ∃ clauses, ReadsClauses goal (ls ++ ks ++ us) clauses := by
  obtain ⟨us, fill, as, bs, clause, split, done, read⟩ := held.complete fillable
  by_cases sheet : goal = .sheet
  · subst sheet
    have all := ReadsClauses.sheet (.clause done read)
    rw [← split] at all
    exact ⟨us ++ [.newline, .endMark], List.append_subset.mpr ⟨fill, by decide⟩, _, by simpa using all⟩
  · rw [done.empty sheet] at done
    obtain ⟨n, rfl⟩ := done.newlines
    refine ⟨us, fill, [clause], ?_⟩
    rw [split]
    simpa [newlines] using ReadsClauses.single (n := n) (m := 0) sheet read

/-- Wherever the reader gets to, the text can be completed from there. -/
theorem StateReads.complete (held : StateReads goal ls s) :
    ∃ us ⊆ Lexeme.fillers, ∃ clauses, ReadsClauses goal (ls ++ us) clauses := by
  cases held with
  | @fresh done _ _ before =>
    have site : SiteReads goal (.atStart goal done) ls :=
      ⟨rfl, ls, [], [], by simp, before, .first, .base .chainNil⟩
    have due : Leads [] .operand := rfl
    simpa using site.completeText due.fillable
  | inside site leads => exact site.completeText leads.fillable
  | @ended _ _ _ k single before clause =>
    obtain ⟨n, rfl⟩ := before.newlines
    have all := ReadsClauses.single (n := n) (m := k + 1) single clause
    exact ⟨[], List.nil_subset _, _, by simpa [newlines] using all⟩
  | sealed sheet before =>
    subst sheet
    have all := ReadsClauses.sheet before
    exact ⟨[], List.nil_subset _, _, by rwa [List.append_nil]⟩

/-! Texts. -/

/-- Lexemes with a blank behind each. -/
def spaced (ls : List Lexeme) : List Char :=
  ls.flatMap fun l => l.text ++ [' ']

theorem scans_spaced (loose : ∀ l ∈ us, l.Loose) (b : Bool) : ∃ b', Scans b (spaced us) us b' [] := by
  induction us generalizing b with
  | nil => exact ⟨b, .done⟩
  | cons l us ih =>
    obtain ⟨b', later⟩ := ih (fun k member => loose k (.tail _ member)) true
    have first := loose l (.head _)
    have blank : Parts ' ' := parts_of_isBlank rfl
    refine ⟨b', .lexeme first.spelt (blank.endsBefore first.notCallee (spaced us))
      (absurd · first.notIndex) ?_ (.blank rfl later)⟩
    simp [spaced]

theorem Lexes.spaced (lexes : Lexes u ls) (loose : ∀ l ∈ us, l.Loose) :
    Lexes (u ++ ' ' :: spaced us) (ls ++ us) := by
  obtain ⟨b, scans⟩ := id lexes
  obtain ⟨b', later⟩ := scans_spaced loose true
  have blank : Parts ' ' := parts_of_isBlank rfl
  have before : Scans false (u ++ ' ' :: Formulary.spaced us) ls b (' ' :: Formulary.spaced us) :=
    scans.extend fun l last => blank.endsBefore (lexes.last_not_callee l last) _
  exact ⟨b', before.trans (.blank rfl later)⟩

/-- Where a letter is taken as a callee it could be a name. -/
theorem take_scalar_of_callee {s t : State} (taken : s.take offset (.callee f) = .ok t) :
    ∃ t', s.take offset (.scalar f) = .ok t' := by
  cases s with
  | fresh goal done afterNewline => exact ⟨_, rfl⟩
  | inside site focus =>
    cases focus with
    | operand | sumName => exact ⟨_, rfl⟩
    | vecName use => exact ⟨_, rfl⟩
    | whole p => exact nomatch feedWhole_follows (elim_ok taken)
    | vecClose use => cases use <;> cases taken
    | _ => cases taken
  | ended | sealed => cases taken

/-- The reader gets through the text, read as a goal asks. -/
def Passes (goal : Goal) (u : List Char) : Prop :=
  ∃ ls ps t, Lexes u ls ∧ ps.map (·.piece) = ls.map .lexeme ∧
    (State.start goal).takePieces ps = .ok t

theorem Passes.nil (goal : Goal) : Passes goal [] :=
  ⟨[], [], .start goal, ⟨false, .done⟩, rfl, rfl⟩

/-- A text that the reader gets through can be completed. -/
theorem Passes.complete (passes : Passes .formula u) : ∃ w e, parseExpression (u ++ w) = .ok e := by
  obtain ⟨ls, ps, t, lexes, pieces, taken⟩ := passes
  obtain ⟨b, scans⟩ := id lexes
  have held := takePieces_reads (stateReads_start .formula) scans pieces taken
  obtain ⟨us, fill, clauses, read⟩ := held.complete
  have all := lexes.spaced fun l member => Lexeme.loose_of_mem_fillers (fill member)
  rw [List.nil_append] at read
  generalize same : ls ++ us = ks at read all
  cases read with
  | single _ clause =>
    cases clause with
    | @expression _ p whole =>
      exact ⟨_, p.expr, (parseExpression_ok_iff _ _).mpr ⟨_, _, _, p, all, whole, rfl⟩⟩
    | declaration declares => exact absurd rfl declares

/-- Up to a piece before which all pieces are taken the reader gets through the text. -/
theorem passes_take {text : List Char} {before after : List Placed} {p : Placed} {t : State}
    (pieces : scan text = before ++ p :: after)
    (taken : (State.start goal).takePieces before = .ok t) : Passes goal (text.take p.start) := by
  obtain ⟨ls, lexemes⟩ := takePieces_lexemes taken
  obtain ⟨b₁, rest, offset, scans, length, later⟩ := scans_of_scanFrom_append pieces lexemes
  obtain ⟨b₂, c, cs, blanks, -, start, -⟩ := scans_of_scanFrom_cons later
  have upTo := scans.trans blanks
  rw [List.append_nil] at upTo
  obtain ⟨u, rfl⟩ := upTo.suffix
  have cut : (u ++ c :: cs).take p.start = u := by
    have here : u.length = p.start := by
      rw [List.length_append, List.length_cons] at length
      omega
    rw [← here, List.take_left']
    rfl
  rw [cut]
  obtain ⟨ks, alone, rfl | ⟨-, front, f, rfl, rfl⟩⟩ := upTo.stop
  · exact ⟨_, before, t, ⟨b₂, alone⟩, lexemes, taken⟩
  · -- The parenthesis that made a callee of the last letter has been cut off.
    obtain ⟨s, ps, qs, frontPieces, last, run, step⟩ := takePieces_split taken lexemes
    obtain ⟨u, offset, -, callee, -, -⟩ := takePieces_cons_ok step last
    obtain ⟨t', scalar⟩ := take_scalar_of_callee callee
    have named : State.takePieces s [⟨.lexeme (.scalar f), offset⟩] = .ok t' :=
      State.takePieces_lexeme rfl scalar
    refine ⟨front ++ [.scalar f], _, t', ⟨b₂, alone⟩, ?_,
      State.takePieces_append_eq_ok.mpr ⟨s, run, named⟩⟩
    rw [List.map_append, List.map_append, frontPieces]
    rfl

theorem passes_take_of_mem {text : List Char} {p : Placed} {t : State}
    (taken : (State.start goal).takePieces (scan text) = .ok t) (member : p ∈ scan text) :
    Passes goal (text.take p.start) := by
  obtain ⟨before, after, pieces⟩ := List.append_of_mem member
  rw [pieces] at taken
  obtain ⟨s, run, -⟩ := State.takePieces_append_eq_ok.mp taken
  exact passes_take pieces run

/-- Whatever a text is refused for, the reader gets through all that stands before. -/
theorem passes_of_refused {text : List Char} (refused : readStatements goal text = .error r) :
    Passes goal (text.take r.position) := by
  rcases readStatements_stop refused with unread | ⟨t, p, taken, found, -, -, here⟩
  · rcases readClauses_stop unread with
      ⟨before, p, after, t, pieces, taken, fault⟩ | ⟨t, t', taken, -, rfl⟩
    · rw [(takePiece_error fault).2]
      exact passes_take pieces taken
    · cases last : (scan text).getLast? with
      | none =>
        have start : lastStart (scan text) = 0 := by simp [lastStart, last]
        simp only [State.refusal, start, List.take_zero]
        exact Passes.nil goal
      | some p =>
        have start : lastStart (scan text) = p.start := by simp [lastStart, last]
        simp only [State.refusal, start]
        exact passes_take_of_mem taken (List.mem_of_getLast? last)
  · rw [here]
    exact passes_take_of_mem taken found

/-- Faults are not reported late: whatever an expression is refused for, the text before the fault can be
completed to an expression. -/
theorem text_before_fault_completes (text : List Char) (r : Rejection)
    (refused : parseExpression text = .error r) :
    ∃ w e, parseExpression (text.take r.position ++ w) = .ok e := by
  apply Passes.complete
  exact passes_of_refused ((parseExpression_error_iff text r).mp refused)

/-- In a call, at the name of the vector that a sum binds. -/
theorem text_before_fault_completes_in_header :
    ∃ r, parseExpression ['f', '(', '\\', 's', 'u', 'm', '_', '{', '\\', 'v', 'e', 'c', '{', 'i', '('] =
        .error r ∧ r.position = 14 ∧
      ∃ w e, parseExpression (['f', '(', '\\', 's', 'u', 'm', '_', '{', '\\', 'v', 'e', 'c', '{', 'i',
        '('].take r.position ++ w) = .ok e :=
  ⟨_, rfl, rfl, text_before_fault_completes _ _ rfl⟩

end Formulary
