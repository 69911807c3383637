import Formulary.Proofs.Answers
import Formulary.Proofs.Prefixes

/-! The ways to read a text agree. What is read as an expression is the same as a statement, a declaration
is refused as an expression at its `=`, and a sheet of one statement is that statement. -/
namespace Formulary

variable {text : List Char}

/-! Heads. -/

/-- What the front of a declaration is as an expression of its own. -/
def Head.expression : Head → Expression
  | .name i => .variable i
  | .applied f i => .call f (.variable i)
  | .mapped f p i => .index (.call f (.variable (.vector p))) (.variable (.scalar i))

/-- The head of a phrase is written as the phrase. -/
def Phrase.Faithful (p : Phrase) : Prop := ∀ h ∈ p.head, p.expr = h.expression

namespace Phrase.Faithful

theorem plain (e : Expression) : (Phrase.plain e).Faithful := nofun

theorem identifier (i : Identifier) : (Phrase.identifier i).Faithful := by
  intro h found
  cases found
  rfl

theorem call {p : Phrase} (f : Char) (held : p.Faithful) : (Phrase.call f p).Faithful := by
  intro h found
  simp only [Phrase.call, Option.mem_def] at found
  split at found
  · next i named =>
    cases found
    exact congrArg (Expression.call f) (held _ named)
  · cases found

theorem index {p q : Phrase} (base : p.Faithful) (subscript : q.Faithful) :
    (Phrase.index p q).Faithful := by
  intro h found
  simp only [Phrase.index, Option.mem_def] at found
  split at found
  · next f v i applied named =>
    cases found
    have called := base _ applied
    have letter := subscript _ named
    rw [Phrase.index, called, letter]
    rfl
  · cases found

theorem join {p : Phrase} (held : p.Faithful) (c : Chain) : (c.join p).Faithful := by
  cases c with
  | nil => exact held
  | cons => exact plain _

end Phrase.Faithful

def Part.Faithful : Part → Prop
  | .opening (.subscript base) => base.Faithful
  | .operand p _ | .whole p => p.Faithful
  | _ => True

theorem Reads.faithful (read : Reads ls part) : part.Faithful := by
  induction read with
  | subscript _ _ operand => exact operand
  | identifier => exact .identifier _
  | call _ _ _ argument => exact .call _ argument
  | indexed _ _ base subscript => exact .index base subscript
  | last _ _ _ operand => exact operand.join _
  | lastSum => exact (Phrase.Faithful.plain _).join _
  | sumSubscript | number | parenthesised | pair | vector | applied => exact .plain _
  | _ => trivial

/-! Declarations. -/

/-- Behind a complete expression an `=` does not fit into an expression. -/
theorem formula_refuses_equals (read : Reads ls (.whole p)) {ps : List Placed} {e : Placed}
    (pieces : ps.map (·.piece) = (newlines n ++ ls).map .lexeme) (equals : e.piece = .lexeme .equals)
    (after : List Placed) : ∃ r, (State.start .formula).takePieces (ps ++ e :: after) = .error r ∧
      r.cause = .unexpected .equals "=" ∧ r.position = e.start := by
  rw [List.map_append] at pieces
  obtain ⟨front, back, rfl, frontPieces, backPieces⟩ := List.map_eq_append_iff.mp pieces
  obtain ⟨b, before⟩ := fresh_newlines .formula [] false frontPieces
  obtain ⟨site, q, ending, run, settled⟩ := read.run_fresh .formula [] b
  have taken := State.takePieces_append_eq_ok.mpr ⟨_, before, run.takePieces backPieces⟩
  have step : (State.inside site (.value q ending)).take e.start .equals =
      .error (.inside (.atStart .formula []) (.whole p)) := by
    change feedSettled site q e.start .equals = _
    rw [feedSettled, settled]
    rfl
  obtain ⟨r, refused⟩ : ∃ r, (State.inside site (.value q ending)).takePiece e = .error r := by
    rw [State.takePiece, equals]
    exact ⟨_, mapError_eq_error.mpr ⟨_, step, rfl⟩⟩
  obtain ⟨cause, position⟩ := takePiece_error refused
  refine ⟨r, ?_, by rw [cause, equals]; rfl, position⟩
  rw [State.takePieces_append, State.start, taken]
  exact bind_eq_error.mpr (.inr ⟨_, rfl, bind_eq_error.mpr (.inl refused)⟩)

theorem parseExpression_declaration {head : Head} {body : Expression}
    (ok : parseStatement text = .ok (.declaration head body)) : ∃ front back r,
      text = front ++ '=' :: back ∧ parseExpression front = .ok head.expression ∧
        parseExpression back = .ok body ∧ parseExpression text = .error r ∧
          r.position = front.length ∧ r.cause = .unexpected .equals "=" := by
  obtain ⟨n, ks, m, ⟨b, scans⟩, statement⟩ := (parseStatement_ok_iff _ _).mp ok
  cases statement with
  | @declaration ls p _ us q _ target named definition =>
    have around : newlines n ++ (ls ++ [.equals] ++ us) ++ newlines m =
        newlines n ++ ls ++ .equals :: (us ++ newlines m) := by simp
    rw [around] at scans
    obtain ⟨front, back, b₁, rfl, before, here, behind⟩ := scans.split
    have alone : Lexes front (newlines n ++ ls) := ⟨b₁, before.alone (by simp [Lexeme.text])⟩
    have rest : Lexes back (us ++ newlines m) := ⟨b, behind⟩
    obtain ⟨ps, pieces, scanned⟩ := before.scanFrom_eq 0
    have mark : scan (front ++ '=' :: back) =
        ps ++ ⟨.lexeme .equals, front.length⟩ :: scanFrom 0 (front.length + 1) false back := by
      have place : 0 + ((front ++ '=' :: back).length - ('=' :: back).length) = front.length := by
        simp
      rw [← place]
      exact scanned
    obtain ⟨r, refused, cause, position⟩ := formula_refuses_equals target pieces
      (e := ⟨.lexeme .equals, front.length⟩) rfl (scanFrom 0 (front.length + 1) false back)
    rw [← mark] at refused
    have unread := readStatements_of_error (readClauses_of_error refused)
    refine ⟨front, back, r, rfl, ?_, ?_, (parseExpression_error_iff _ r).mpr unread, position, cause⟩
    · exact (parseExpression_ok_iff front _).mpr
        ⟨n, ls, 0, p, by simpa [newlines] using alone, target, target.faithful head named⟩
    · exact (parseExpression_ok_iff back _).mpr
        ⟨0, us, m, q, by simpa [newlines] using rest, definition, rfl⟩

/-! Sheets of one statement. -/

theorem ReadsStatement.forGoal (read : ReadsStatement goal ks s) (declares : goal' ≠ .formula) :
    ReadsStatement goal' ks s := by
  cases read with
  | expression whole => exact .expression whole
  | declaration _ target named definition => exact .declaration declares target named definition

theorem ReadsLines.none (lines : ReadsLines ls []) : ∃ n, ls = newlines n := by
  generalize none : ([] : List Statement) = sts at lines
  induction lines with
  | start => exact ⟨0, rfl⟩
  | newline _ ih =>
    obtain ⟨n, rfl⟩ := ih none
    exact ⟨n + 1, List.replicate_succ'.symm⟩
  | statement => simp at none

theorem ReadsLines.newlines (lines : ReadsLines ls sts) (n : Nat) :
    ReadsLines (ls ++ newlines n) sts := by
  induction n with
  | zero => simpa [Formulary.newlines] using lines
  | succ n ih =>
    have last : Formulary.newlines (n + 1) = Formulary.newlines n ++ [.newline] :=
      List.replicate_succ'
    rw [last, ← List.append_assoc]
    exact ih.newline

/-- One statement among blank lines. -/
theorem readsLines_single_iff (ls : List Lexeme) (s : Statement) : ReadsLines ls [s] ↔
    ∃ n ks m, ls = newlines n ++ ks ++ newlines m ++ [.newline] ∧ ReadsStatement .sheet ks s := by
  constructor
  · intro lines
    generalize one : [s] = sts at lines
    induction lines with
    | start => cases one
    | newline _ ih =>
      obtain ⟨n, ks, m, rfl, statement⟩ := ih one
      refine ⟨n, ks, m + 1, ?_, statement⟩
      simp [Formulary.newlines, List.replicate_succ']
    | @statement _ before ks _ lines statement =>
      obtain ⟨rfl, last⟩ := List.append_inj' (show [] ++ [s] = before ++ [_] from one) rfl
      obtain rfl := List.singleton_inj.mp last
      obtain ⟨n, rfl⟩ := lines.none
      exact ⟨n, ks, 0, by simp [Formulary.newlines], statement⟩
  · rintro ⟨n, ks, m, rfl, statement⟩
    have before : ReadsLines (newlines n) [] := ReadsLines.start.newlines n
    have lines := (before.statement statement).newlines m
    have shift : newlines n ++ ks ++ [.newline] ++ newlines m =
        newlines n ++ ks ++ newlines m ++ [.newline] := by
      rw [List.append_assoc, List.append_assoc _ (newlines m)]
      congr 1
      exact List.replicate_succ.symm.trans List.replicate_succ'
    exact shift ▸ lines

theorem scan_endLine (text : List Char) : (scan (text ++ endLine)).map (·.piece) =
    (scan text).map (·.piece) ++ [Lexeme.newline, .endMark].map .lexeme := by
  rw [endLine, scan_append_cons parts_newline (by decide), List.map_append]
  rfl

/-- The line that ends a sheet adds two lexemes. -/
theorem lexes_endLine_iff (ls : List Lexeme) :
    Lexes (text ++ endLine) (ls ++ [.newline, .endMark]) ↔ Lexes text ls := by
  rw [← scan_eq_lexemes_iff, ← scan_eq_lexemes_iff, scan_endLine, List.map_append]
  exact List.append_left_inj _

theorem Lexes.of_endLine (lexes : Lexes (text ++ endLine) ks) :
    ∃ ls, ks = ls ++ [.newline, .endMark] ∧ Lexes text ls := by
  have pieces := (scan_eq_lexemes_iff _ ks).mpr lexes
  rw [scan_endLine] at pieces
  obtain ⟨ls, ends, rfl, front, last⟩ := List.map_eq_append_iff.mp pieces.symm
  obtain rfl : ends = [.newline, .endMark] := (List.map_inj_right fun _ _ => Piece.lexeme.inj).mp last
  exact ⟨ls, rfl, (scan_eq_lexemes_iff text ls).mp front.symm⟩

theorem parseSheet_single_iff (plain : ∀ line ∈ splitLines text, isEndLine line = false)
    (s : Statement) : parseSheet text = .ok [s] ↔ parseStatement text = .ok s := by
  have body : sheetBody text = text := (bodyOf_sheetBody text).unique (.whole plain)
  rw [parseSheet_ok_iff, parseStatement_ok_iff, body]
  constructor
  · rintro ⟨ls, lexes, lines⟩
    obtain ⟨n, ks, m, rfl, statement⟩ := (readsLines_single_iff ls s).mp lines
    rw [List.append_assoc] at lexes
    exact ⟨n, ks, m, (lexes_endLine_iff _).mp lexes, statement.forGoal nofun⟩
  · rintro ⟨n, ks, m, lexes, statement⟩
    have lines := (readsLines_single_iff _ s).mpr ⟨n, ks, m, rfl, statement.forGoal nofun⟩
    refine ⟨_, ?_, lines⟩
    rw [List.append_assoc]
    exact (lexes_endLine_iff _).mpr lexes

theorem parseExpression_iff_statement (text : List Char) (e : Expression) :
    parseExpression text = .ok e ↔ parseStatement text = .ok (.expression e) := by
  rw [parseExpression_ok_iff, parseStatement_ok_iff]
  constructor
  · rintro ⟨n, ks, m, p, lexes, whole, rfl⟩
    exact ⟨n, ks, m, lexes, .expression whole⟩
  · rintro ⟨n, ks, m, lexes, statement⟩
    cases statement with
    | expression whole => exact ⟨n, ks, m, _, lexes, whole, rfl⟩

/-- Expressions are the statements that declare nothing. A declaration is an expression up to its own
`=`, where it is refused as one. A text without an end line is a sheet of one statement if and only if it
is that statement. -/
theorem readings_agree (text : List Char) :
    (∀ e, parseExpression text = .ok e ↔ parseStatement text = .ok (.expression e)) ∧
    (∀ head body, parseStatement text = .ok (.declaration head body) → ∃ front back r,
      text = front ++ '=' :: back ∧ parseExpression front = .ok head.expression ∧
        parseExpression back = .ok body ∧ parseExpression text = .error r ∧
          r.position = front.length ∧ (r.report text).found = some "'='") ∧
    ((∀ line ∈ splitLines text, isEndLine line = false) →
      ∀ s, parseSheet text = .ok [s] ↔ parseStatement text = .ok s) := by
  refine ⟨parseExpression_iff_statement text, ?_, parseSheet_single_iff⟩
  intro head body ok
  obtain ⟨front, back, r, split, target, definition, refused, position, cause⟩ :=
    parseExpression_declaration ok
  have found : (r.report text).found = some "'='" := by
    change some r.cause.found = _
    rw [cause]
    exact congrArg some quoted_equals
  exact ⟨front, back, r, split, target, definition, refused, position, found⟩

/-- The first `=` is that of the declaration, the second one that of the sum. -/
theorem readings_agree_on_sum : ∃ front back r,
    "n=\\sum_\x7bi=1\x7d^\x7b2\x7di".toList = front ++ '=' :: back ∧
      parseExpression front = .ok (.variable (.scalar 'n')) ∧
        parseExpression back = .ok (.sum (.scalar 'i') (.number (numberValue ['1'] []))
          (.number (numberValue ['2'] [])) (.variable (.scalar 'i'))) ∧
          parseExpression "n=\\sum_\x7bi=1\x7d^\x7b2\x7di".toList = .error r ∧
            r.position = front.length ∧
              (r.report "n=\\sum_\x7bi=1\x7d^\x7b2\x7di".toList).found = some "'='" :=
  (readings_agree _).2.1 (.name (.scalar 'n')) _ rfl

end Formulary
