import Formulary.Number.Notation
import Formulary.Proofs.Sheets

/-! Answers to texts. Every text is read or refused with a report, and the report points at what it says
was found: a piece of the text, a newline or the end. A text that ends too early is reported where its
last piece begins, and not where it ends. -/
namespace Formulary

variable {text line : List Char} {r e : Rejection} {before after : List (List Char)}

/-! Numbers and symbols. -/

theorem isWhite_of_isDigit {c : Char} (digit : isDigit c = true) : isWhite c = false := by
  obtain ⟨first, member, low, high⟩ := (isDigit_iff c).mp digit
  have zeros : ∀ z ∈ digitZeros, z = 0x30 ∨ 0x660 ≤ z ∧ z ≤ 0x1040 ∨ z = 0x1090 ∨
      0x17e0 ≤ z ∧ z ≤ 0x1c50 ∨ 0x3001 ≤ z := by decide
  have range := zeros first member
  simp only [isWhite, Bool.or_eq_false_iff, Bool.and_eq_false_iff, decide_eq_false_iff_not,
    beq_eq_false_iff_ne]
  omega

theorem trim_eq_self {cs : List Char} (visible : ∀ c ∈ cs, isWhite c = false) : trim cs = cs := by
  have front : ∀ c ∈ cs.head?, isWhite c = false := fun c first =>
    visible c (List.mem_of_mem_head? first)
  have back : ∀ c ∈ cs.reverse.head?, isWhite c = false := fun c last =>
    visible c (List.mem_reverse.mp (List.mem_of_mem_head? last))
  rw [trim, dropWhile_stop front, dropWhile_stop back, List.reverse_reverse]

theorem splitSign_of_isDigit {cs : List Char} (digit : ∀ c ∈ cs.head?, isDigit c = true) :
    Binary64.splitSign cs = (false, cs) := by
  unfold Binary64.splitSign
  split
  · exact absurd (digit '-' rfl) (by decide)
  · exact absurd (digit '+' rfl) (by decide)
  · rfl

theorem digitRun_digits {digits : List Char} (inside : ∀ c ∈ digits, isDigit c = true) (b : Bool)
    {rest : List Char} (stop : ∀ c ∈ rest.head?, isDigit c = false ∧ c ≠ '_') :
    Binary64.digitRun b (digits ++ rest) = (digits, rest) := by
  induction digits generalizing b with
  | nil =>
    cases rest with
    | nil => rfl
    | cons c rest =>
      obtain ⟨notDigit, different⟩ := stop c rfl
      simp [Binary64.digitRun, notDigit, different]
  | cons c digits ih =>
    rw [List.cons_append, Binary64.digitRun, if_pos (inside c (.head _)),
      ih fun d member => inside d (.tail _ member)]

/-- The text of a number is a numeral. -/
theorem ofText?_number {whole fraction : List Char} (spelt : (Lexeme.number whole fraction).Spelt) :
    (Binary64.ofText? (String.ofList (Lexeme.number whole fraction).text)).isSome = true := by
  obtain ⟨nonempty, digits⟩ := spelt
  have wholeDigits : ∀ c ∈ whole, isDigit c = true := fun c member =>
    digits c (List.mem_append_left _ member)
  have fractionDigits : ∀ c ∈ fraction, isDigit c = true := fun c member =>
    digits c (List.mem_append_right _ member)
  obtain ⟨d, ds, rfl⟩ := List.exists_cons_of_ne_nil nonempty
  have unsigned : ∀ rest, ∀ c ∈ (d :: ds ++ rest).head?, isDigit c = true := by
    rintro rest c ⟨⟩
    exact wholeDigits d (.head _)
  cases fraction with
  | nil =>
    have visible : ∀ c ∈ d :: ds, isWhite c = false := fun c member =>
      isWhite_of_isDigit (wholeDigits c member)
    have run : Binary64.digitRun false (d :: ds ++ []) = _ := digitRun_digits wholeDigits false nofun
    have sign := splitSign_of_isDigit (unsigned [])
    rw [List.append_nil] at run sign
    simp only [Lexeme.text, Binary64.ofText?, String.toList_ofList, trim_eq_self visible, sign, run]
    split
    · rfl
    · split <;> rfl
  | cons f fs =>
    have visible : ∀ c ∈ d :: ds ++ '.' :: f :: fs, isWhite c = false := by
      intro c member
      rcases List.mem_append.mp member with inWhole | behind
      · exact isWhite_of_isDigit (wholeDigits c inWhole)
      · rcases List.mem_cons.mp behind with rfl | inFraction
        · decide
        · exact isWhite_of_isDigit (fractionDigits c inFraction)
    have point : ∀ c ∈ ('.' :: f :: fs).head?, isDigit c = false ∧ c ≠ '_' := by
      rintro c ⟨⟩
      decide
    have wholeRun := digitRun_digits wholeDigits false point
    have fractionRun : Binary64.digitRun false (f :: fs ++ []) = _ :=
      digitRun_digits fractionDigits false nofun
    have sign := splitSign_of_isDigit (unsigned ('.' :: f :: fs))
    rw [List.append_nil] at fractionRun
    simp only [Lexeme.text, Binary64.ofText?, String.toList_ofList, trim_eq_self visible, sign,
      wholeRun, fractionRun]
    split
    · rfl
    · split <;> rfl

/-- What a lexeme stands for can be found from its text: the value of a number, the operator of a
symbol. -/
def Lexeme.Meaningful : Lexeme → Prop
  | .number whole fraction =>
    (Binary64.ofText? (String.ofList (Lexeme.number whole fraction).text)).isSome = true
  | .symbol s => s = .vec ∨ ∃ o, Symbol.operator? s.name = some o ∧ Symbol.ofOperator? o = some s
  | _ => True

theorem meaningful_of_mem_scan {p : Placed} {l : Lexeme} (found : p ∈ scan text)
    (lexeme : p.piece = .lexeme l) : l.Meaningful := by
  have spelt := spelt_of_mem_scan found lexeme
  cases l with
  | number => exact ofText?_number spelt
  | symbol s => exact s.operator?_name
  | _ => trivial

/-! What was found. -/

/-- What a report says was found, at a position of a text: the end of the text, or what stands at the
position. A sheet has a newline behind it. -/
inductive Report.Names (goal : Goal) (text : List Char) (position : Nat) (report : Report) : Prop where
  | endOfInput : report.found = some "end of input" → report.Names goal text position
  | character (c : Char) : text[position]? = some c → ⟨.stray c, position⟩ ∈ scan text →
    report.found = some (quoted (String.ofList [c])) →
    report.message = "unexpected character " ++ quoted (String.ofList [c]) →
    report.Names goal text position
  | newline : text[position]? = some '\n' ∨ goal = .sheet ∧ position = text.length →
    report.found = some "newline" → report.message = "unexpected newline" →
    report.Names goal text position
  | token (l : Lexeme) : l.text <+: text.drop position → ⟨.lexeme l, position⟩ ∈ scan text →
    report.found = some (quoted (String.ofList l.text)) →
    report.message = "unexpected " ++ quoted (String.ofList l.text) →
    report.Names goal text position
  | unknownSymbol (word : List Char) : '\\' :: word <+: text.drop position →
    ⟨.unknown word, position⟩ ∈ scan text →
    report.found = some (quoted (String.ofList ('\\' :: word))) →
    report.message = "unknown symbol '" ++ String.ofList ('\\' :: word) ++ "'" →
    report.Names goal text position
  | target : text[position]? = some '=' → ⟨.lexeme .equals, position⟩ ∈ scan text →
    report.found = some (quoted "=") → report.message = "invalid declaration target" →
    report.Names goal text position

theorem getElem?_of_starts {c : Char} {n : Nat} (start : [c] <+: text.drop n) : text[n]? = some c := by
  obtain ⟨rest, same⟩ := start
  rw [← Nat.add_zero n, ← List.getElem?_drop, ← same]
  rfl

theorem quoted_equals : quoted "=" = Cause.invalidTarget.found := by decide +kernel

theorem Lexeme.found (l : Lexeme) (s : String) : l = .newline ∨ l = .endMark ∨
    (Cause.unexpected l.terminal s).found = quoted s := by
  cases l with
  | newline => exact .inl rfl
  | endMark => exact .inr (.inl rfl)
  | symbol s => cases s <;> exact .inr (.inr rfl)
  | _ => exact .inr (.inr rfl)

theorem Rejection.FoundIn.names (found : r.FoundIn text) (goal : Goal) :
    (r.report text).Names goal text r.position := by
  have reported : (r.report text).found = some r.cause.found := rfl
  have message : (r.report text).message = r.cause.message := rfl
  cases found with
  | tooEarly cause _ =>
    rw [cause] at reported
    exact .endOfInput reported
  | target p member equals cause position =>
    have here := (text_of_mem_scan member).2
    rw [cause] at reported message
    rw [← quoted_equals] at reported
    rw [equals, ← position] at here
    have placed : p = ⟨.lexeme .equals, r.position⟩ := by
      rw [position, ← equals]
    exact .target (getElem?_of_starts here) (placed ▸ member) reported message
  | piece p member cause position =>
    have here := (text_of_mem_scan member).2
    obtain ⟨piece, start⟩ := p
    subst position
    rw [cause] at reported message
    cases piece with
    | stray c => exact .character c (getElem?_of_starts here) member reported message
    | unknown word => exact .unknownSymbol word here member reported message
    | lexeme l =>
      rcases l.found (String.ofList l.text) with rfl | rfl | found
      · exact .newline (.inl (getElem?_of_starts here)) reported message
      · exact .endOfInput reported
      · have unexpected : (Cause.unexpected l.terminal (String.ofList l.text)).message =
            "unexpected " ++ quoted (String.ofList l.text) := by rw [← found]; rfl
        exact .token l here member (reported.trans (congrArg some found)) (message.trans unexpected)

/-! Where a report points. -/

/-- The line in question without the carriage returns at its end, over a caret. The caret is under the
character at the position if that is shown. -/
def Report.Shows (text line : List Char) (position column : Nat) (report : Report) : Prop :=
  ∃ shown returns, line = shown ++ List.replicate returns '\r' ∧ shown.getLast? ≠ some '\r' ∧
    report.context text = String.ofList (shown ++ '\n' :: List.replicate column ' ' ++ ['^']) ∧
      (column < shown.length → shown[column]? = text[position]?)

/-- The text that is read: of a sheet, the part that counts and the line that ends every sheet. -/
def Goal.source (goal : Goal) (text : List Char) : List Char :=
  match goal with
  | .sheet => sheetBody text ++ endLine
  | .line | .formula => text

/-- A report points at a position of a text. The position is a line and a column of it, both counted
from one; and they are the same in the text that is read, whether they are found from the position or
counted along the way. -/
structure Report.PointsAt (goal : Goal) (text : List Char) (position : Nat) (report : Report) :
    Prop where
  inText : position ≤ text.length
  here : report.position = some (position : Int)
  row : report.line = some ((text.take position).count '\n' + 1 : Int)
  column : ∃ before line after column, splitLines text = before ++ line :: after ∧
    column ≤ line.length ∧ position = lineStart before + column ∧
      report.column = some (column + 1 : Int) ∧ report.Shows text line position column
  located : report.line = some (locate (goal.source text) position).line ∧
    report.column = some (locate (goal.source text) position).column
  counted : ∀ stretches : List (List Char), stretches.flatten = (goal.source text).take position →
    report.line = some (stretches.foldl LineCount.pass .start).place.line ∧
      report.column = some (stretches.foldl LineCount.pass .start).place.column

theorem shownLine_spec (line : List Char) : ∃ returns,
    line = Report.shownLine line ++ List.replicate returns '\r' ∧
      (Report.shownLine line).getLast? ≠ some '\r' := by
  have allReturns : ∀ c ∈ line.reverse.takeWhile (· = '\r'), c = '\r' := fun c member => by
    simpa using mem_takeWhile member
  have cut : line.reverse.takeWhile (· = '\r') ++ line.reverse.dropWhile (· = '\r') = line.reverse :=
    List.takeWhile_append_dropWhile
  have whole := congrArg List.reverse cut
  rw [List.eq_replicate_of_mem allReturns, List.reverse_append, List.reverse_replicate,
    List.reverse_reverse] at whole
  refine ⟨_, whole.symm, fun last => ?_⟩
  rw [Report.shownLine, List.getLast?_reverse] at last
  have stopped := dropWhile_head (p := fun c => decide (c = '\r')) _ (Option.mem_def.mpr last)
  simp at stopped

theorem Report.shows {report : Report} {k : Nat} (split : splitLines text = before ++ line :: after)
    (row : report.line = some (before.length + 1 : Int)) (column : report.column = some (k + 1 : Int)) :
    report.Shows text line (lineStart before + k) k := by
  obtain ⟨returns, whole, last⟩ := shownLine_spec line
  refine ⟨Report.shownLine line, returns, whole, last, ?_, fun visible => ?_⟩
  · have first : (splitLines text)[((before.length + 1 : Int) - 1).toNat]? = some line := by
      rw [Int.add_sub_cancel, Int.toNat_natCast, split, List.getElem?_append_right (Nat.le_refl _),
        Nat.sub_self]
      rfl
    have spaces : (max (k + 1 : Int) 1 - 1).toNat = k := by omega
    rw [Report.context, row, column]
    simp only [first, spaces]
    exact if_neg (by omega)
  · have short : k < line.length := by
      rw [whole, List.length_append]
      omega
    have same : (Report.shownLine line ++ List.replicate returns '\r')[k]? =
        (Report.shownLine line)[k]? := List.getElem?_append_left visible
    obtain ⟨tail, rest, -⟩ := drop_lineStart split (Nat.zero_le line.length)
    rw [Nat.add_zero, List.drop_zero] at rest
    rw [← List.getElem?_drop, rest, List.getElem?_append_left short, ← same, ← whole]

theorem report_pointsAt {goal : Goal} (inside : r.position ≤ text.length)
    (same : (goal.source text).take r.position = text.take r.position) :
    (r.report text).PointsAt goal text r.position := by
  obtain ⟨before, line, after, k, split, within, position⟩ := exists_line inside
  obtain ⟨row, column⟩ := Rejection.report_place split within position
  refine ⟨inside, rfl, ?_, ?_, ?_, fun stretches cut => ?_⟩
  · rw [row, position, count_take split within]
  · exact ⟨before, line, after, k, split, within, position, column,
      position ▸ Report.shows split row column⟩
  · rw [locate_congr same]
    exact ⟨rfl, rfl⟩
  · rw [LineCount.place_foldl inside stretches (cut.trans same)]
    exact ⟨rfl, rfl⟩

/-! Sheets. -/

theorem Rejection.FoundIn.within (found : r.FoundIn text) : r.position ≤ text.length := by
  cases found with
  | piece p member _ position => exact position ▸ Nat.le_of_lt (mem_scan_lt member)
  | target p member _ _ position => exact position ▸ Nat.le_of_lt (mem_scan_lt member)
  | tooEarly _ position =>
    rw [position, lastStart]
    cases last : (scan text).getLast? with
    | none => exact Nat.zero_le _
    | some p => exact Nat.le_of_lt (mem_scan_lt (List.mem_of_getLast? last))

theorem Rejection.FoundIn.moved (found : r.FoundIn line) (late : r.cause ≠ .unexpected .endOfText "")
    (split : splitLines text = before ++ line :: after) (moved : Moved (lineStart before) r e) :
    e.FoundIn text := by
  cases found with
  | tooEarly early _ => exact absurd early late
  | piece p member cause position =>
    exact .piece _ (mem_scan_of_line split member) (moved.cause.trans cause)
      (moved.position.trans (congrArg (lineStart before + ·) position))
  | target p member equals cause position =>
    exact .target _ (mem_scan_of_line split member) equals (moved.cause.trans cause)
      (moved.position.trans (congrArg (lineStart before + ·) position))

/-- A sheet is refused for something that stands in the text, or for a newline where a line ends. It
never ends too early. -/
theorem parseSheet_error (refused : parseSheet text = .error e) :
    (e.FoundIn text ∧ e.cause ≠ .unexpected .endOfText "") ∨
      e.cause = .unexpected .newline "\n" ∧ e.position ≤ text.length ∧
        (text[e.position]? = some '\n' ∨ e.position = text.length) := by
  rcases parseSheet_lines text with
    ⟨sheet, read, -⟩ | ⟨before, line, after, r, e', split, filled, alone, -, fault, refused'⟩
  · cases refused.symm.trans read
  obtain rfl : e' = e := Except.error.inj (refused'.symm.trans refused)
  have nonempty : line ≠ [] := by
    rintro rfl
    cases filled
  obtain ⟨behind, whole⟩ := (bodyOf_sheetBody text).sameLine split nonempty
  cases fault with
  | moved late moved =>
    have found := readStatements_error ((parseStatement_error_iff line r).mp alone)
    exact .inl ⟨found.moved late whole moved, moved.cause ▸ late⟩
  | tooEarly _ cause position =>
    obtain ⟨tail, rest, -, ends⟩ := drop_lineStart whole (Nat.le_refl line.length)
    rw [List.drop_length, List.nil_append, ← position] at rest
    have within : e'.position ≤ text.length := position ▸ lineStart_add_length_le whole
    refine .inr ⟨cause, within, ?_⟩
    rcases ends with rfl | newline
    · exact .inr (Nat.le_antisymm within (List.drop_eq_nil_iff.mp rest))
    · refine .inl ?_
      rw [← rest, List.head?_drop] at newline
      exact newline

/-! Answers. -/

/-- A text is refused as a sheet, as a statement or as an expression. -/
def Refuses (goal : Goal) (text : List Char) (r : Rejection) : Prop :=
  match goal with
  | .sheet => parseSheet text = .error r
  | .line => parseStatement text = .error r
  | .formula => parseExpression text = .error r

/-- A report that points at what it names. -/
structure Rejection.Sound (goal : Goal) (text : List Char) (r : Rejection) : Prop where
  names : (r.report text).Names goal text r.position
  pointsAt : (r.report text).PointsAt goal text r.position

/-- A fault is one of the text that is read. -/
theorem refuses_iff (goal : Goal) (text : List Char) (r : Rejection) :
    Refuses goal text r ↔ readStatements goal (goal.source text) = .error r := by
  cases goal with
  | sheet => exact parseSheet_error_iff text r
  | line => exact parseStatement_error_iff text r
  | formula => exact parseExpression_error_iff text r

theorem Refuses.found {goal : Goal} (refused : Refuses goal text r) (single : goal ≠ .sheet) :
    r.FoundIn text := by
  have read := (refuses_iff goal text r).mp refused
  cases goal with
  | sheet => exact absurd rfl single
  | line | formula => exact readStatements_error read

/-- The faults of a sheet are in the part of it that counts. -/
theorem parseSheet_error_source (refused : parseSheet text = .error r) :
    (Goal.sheet.source text).take r.position = text.take r.position := by
  have within := readStatements_sheet_within ((parseSheet_error_iff text r).mp refused)
  obtain ⟨rest, whole⟩ := (bodyOf_sheetBody text).start
  rw [Goal.source, List.take_append_of_le_length within]
  exact (List.take_append_of_le_length within).symm.trans (congrArg _ whole)

theorem Refuses.sound {goal : Goal} (refused : Refuses goal text r) : r.Sound goal text := by
  cases goal with
  | line =>
    have found := refused.found nofun
    exact ⟨found.names .line, report_pointsAt found.within rfl⟩
  | formula =>
    have found := refused.found nofun
    exact ⟨found.names .formula, report_pointsAt found.within rfl⟩
  | sheet =>
    have source := parseSheet_error_source refused
    rcases parseSheet_error refused with ⟨found, -⟩ | ⟨cause, within, newline⟩
    · exact ⟨found.names .sheet, report_pointsAt found.within source⟩
    · have found : (r.report text).found = some "newline" :=
        congrArg (fun c : Cause => some c.found) cause
      exact ⟨.newline (newline.imp_right (⟨rfl, ·⟩)) found (congrArg Cause.message cause),
        report_pointsAt within source⟩

/-- The answer to a text: what it is read as, or a report that points at what it names. -/
inductive Answered (goal : Goal) (text : List Char) : Except Rejection α → Prop where
  | read (a : α) : Answered goal text (.ok a)
  | refused (r : Rejection) : r.Sound goal text → Answered goal text (.error r)

theorem answered (goal : Goal) {x : Except Rejection α}
    (refuses : ∀ r, x = .error r → Refuses goal text r) : Answered goal text x := by
  cases x with
  | ok a => exact .read a
  | error r => exact .refused r (refuses r rfl).sound

/-- Every text is answered, read in any of the three ways. What is read alone is one statement, or one
expression; and all lexemes of a text have a meaning. -/
theorem every_text_is_answered (text : List Char) :
    Answered .sheet text (parseSheet text) ∧ Answered .line text (parseStatement text) ∧
      Answered .formula text (parseExpression text) ∧
      (∀ sts, readStatements .line text = .ok sts → ∃ s, sts = [s]) ∧
      (∀ sts, readStatements .formula text = .ok sts → ∃ e, sts = [.expression e]) ∧
      ∀ (goal : Goal) (p : Placed), p ∈ scan (goal.source text) →
        ∀ l, p.piece = .lexeme l → l.Meaningful := by
  refine ⟨answered .sheet fun r refused => refused, answered .line fun r refused => refused,
    answered .formula fun r refused => refused, fun sts ok => readStatements_single ok nofun,
    fun sts ok => readStatements_formula ok, fun goal p found l lexeme => ?_⟩
  exact meaningful_of_mem_scan found lexeme

/-! The end of a text. -/

theorem quoted_ne_endOfInput (s : String) : quoted s ≠ "end of input" := by
  intro same
  have first : (quoted s).toList.head? = some (quoteFor s.toList) := by
    rw [quoted, String.toList_ofList]
    rfl
  rw [same, quoteFor] at first
  split at first <;> exact absurd first (by decide)

/-- The end of the input is found where the end mark stands, or at the last piece of a text that ends too
early. -/
theorem Rejection.FoundIn.endOfInput (found : r.FoundIn text)
    (ended : (r.report text).found = some "end of input") :
    ['E', 'O', 'F'] <+: text.drop r.position ∨
      r.cause = .unexpected .endOfText "" ∧ r.position = lastStart (scan text) := by
  have said : r.cause.found = "end of input" := Option.some.inj ended
  cases found with
  | tooEarly cause position => exact .inr ⟨cause, position⟩
  | target p member equals cause position =>
    rw [cause, ← quoted_equals] at said
    exact absurd said (quoted_ne_endOfInput _)
  | piece p member cause position =>
    rw [cause] at said
    have here := (text_of_mem_scan member).2
    rw [← position] at here
    cases piece : p.piece with
    | stray c =>
      rw [piece] at said
      exact absurd said (quoted_ne_endOfInput _)
    | unknown word =>
      rw [piece] at said
      exact absurd said (quoted_ne_endOfInput _)
    | lexeme l =>
      rw [piece] at said here
      rcases l.found (String.ofList l.text) with rfl | rfl | other
      · exact absurd said (by decide)
      · exact .inl here
      · exact absurd (other.symm.trans said) (quoted_ne_endOfInput _)

theorem lastStart_eq_length_iff (text : List Char) :
    lastStart (scan text) = text.length ↔ text = [] := by
  refine ⟨fun same => ?_, fun empty => empty ▸ rfl⟩
  rw [lastStart] at same
  cases last : (scan text).getLast? with
  | none =>
    rw [last] at same
    exact List.length_eq_zero_iff.mp same.symm
  | some p =>
    rw [last] at same
    exact absurd same (Nat.ne_of_lt (mem_scan_lt (List.mem_of_getLast? last)))

/-- An unexpected end of the input is reported where an end mark stands or, of a statement or an
expression that ends too early, where its last piece begins. So it is never at the end of a text, except
of the empty one. -/
theorem endOfInput_place (goal : Goal) (text : List Char) (r : Rejection)
    (refused : Refuses goal text r) (ended : (r.report text).found = some "end of input") :
    (['E', 'O', 'F'] <+: text.drop r.position ∨
      goal ≠ .sheet ∧ r.position = lastStart (scan text)) ∧
      (r.position = text.length ↔ text = []) := by
  have place : ['E', 'O', 'F'] <+: text.drop r.position ∨
      goal ≠ .sheet ∧ r.position = lastStart (scan text) := by
    cases goal with
    | line => exact (refused.found nofun).endOfInput ended |>.imp_right fun early => ⟨nofun, early.2⟩
    | formula =>
      exact (refused.found nofun).endOfInput ended |>.imp_right fun early => ⟨nofun, early.2⟩
    | sheet =>
      rcases parseSheet_error refused with ⟨found, late⟩ | ⟨cause, -⟩
      · exact (found.endOfInput ended).imp_right fun early => absurd early.1 late
      · have said : r.cause.found = "end of input" := Option.some.inj ended
        rw [cause] at said
        exact absurd said (by decide)
  refine ⟨place, ?_⟩
  rcases place with mark | ⟨-, early⟩
  · have inside := mark.length_le
    rw [List.length_drop, List.length_cons] at inside
    refine ⟨fun same => by omega, fun empty => ?_⟩
    rw [empty, List.length_nil] at inside
    omega
  · rw [early]
    exact lastStart_eq_length_iff text

/-- The operand that is due behind the sign is missed before the end. -/
theorem endOfInput_before_the_end : ∃ r, Refuses .formula ['1', ' ', '+'] r ∧
    (r.report ['1', ' ', '+']).found = some "end of input" ∧
      (['E', 'O', 'F'] <+: ['1', ' ', '+'].drop r.position ∨
        Goal.formula ≠ .sheet ∧ r.position = lastStart (scan ['1', ' ', '+'])) ∧
      (r.position = ['1', ' ', '+'].length ↔ ['1', ' ', '+'] = []) :=
  ⟨_, rfl, rfl, endOfInput_place _ _ _ rfl rfl⟩

theorem endOfInput_not_at_the_end : ¬∀ goal text r, Refuses goal text r →
    (r.report text).found = some "end of input" → r.position = text.length := by
  intro atEnd
  exact absurd (atEnd .formula ['1', ' ', '+'] _ rfl rfl) (by decide)

end Formulary
