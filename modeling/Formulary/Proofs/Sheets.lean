import Formulary.Proofs.Lines

/-! Sheets and their lines. A sheet is read if and only if each of its lines is that holds anything; and if
it is not, the fault is that of one line. Lines that cannot be read come first, whatever stands before
them, since heads are judged at the end. -/
namespace Formulary

/-- The lines that hold more than blanks. -/
def filledLines (text : List Char) : List (List Char) :=
  (splitLines text).filter fun line => !line.all isBlank

/-! Reading lines. -/

/-- The statements of lines that can be read, with the offsets that they have in a sheet. -/
inductive ClausesOf : Nat → List (List Char) → List Clause → Prop where
  | nil : ClausesOf start [] []
  | blank (line : List Char) : line.all isBlank = true → ClausesOf (start + line.length + 1) lines cs →
    ClausesOf start (line :: lines) cs
  | filled (line : List Char) (c : Clause) : line.all isBlank = false →
    readClauses .line line = .ok [c] → ClausesOf (start + line.length + 1) lines cs →
    ClausesOf start (line :: lines) (c.moved start :: cs)

variable {text line : List Char} {lines : List (List Char)} {start : Nat} {c : Clause}
  {cs : List Clause}

theorem Refused.later {before : List (List Char)} {first : List Char} {r e : Rejection}
    (refused : Refused (start + first.length + 1 + lineStart before) line r e) :
    Refused (start + lineStart (first :: before)) line r e := by
  have same : start + lineStart (first :: before) = start + first.length + 1 + lineStart before := by
    rw [lineStart_cons]
    omega
  exact same ▸ refused

theorem takePieces_blank (blank : line.all isBlank = true) (done : List Clause) (b : Bool) :
    (State.fresh .sheet done b).takePieces ((scan line).map (·.moved start) ++
      [⟨.lexeme .newline, start + line.length⟩]) = .ok (.fresh .sheet done true) := by
  rw [scan, scanFrom_allBlank blank]
  rfl

/-- The lines are read one by one, up to the first that cannot be read. -/
theorem takePieces_lines (oneLines : ∀ line ∈ lines, '\n' ∉ line)
    (plain : ∀ line ∈ lines, isEndLine line = false) (start : Nat) (done : List Clause) (b : Bool) :
    (∃ cs b', ClausesOf start lines cs ∧ (State.fresh .sheet done b).takePieces (piecesOf start lines) =
      .ok (.fresh .sheet (cs.reverse ++ done) b')) ∨
    ∃ before line after cs r e, lines = before ++ line :: after ∧ ClausesOf start before cs ∧
      line.all isBlank = false ∧ readClauses .line line = .error r ∧
        Refused (start + lineStart before) line r e ∧
          (State.fresh .sheet done b).takePieces (piecesOf start lines) = .error e := by
  -- Between two lines the reader is at the start of a line and holds the clauses so far.
  induction lines generalizing start done b with
  | nil => exact .inl ⟨[], b, .nil, rfl⟩
  | cons first lines ih =>
    have later := ih (fun l member => oneLines l (.tail _ member))
      (fun l member => plain l (.tail _ member)) (start + first.length + 1)
    have pieces : piecesOf start (first :: lines) = ((scan first).map (·.moved start) ++
        [⟨.lexeme .newline, start + first.length⟩]) ++ piecesOf (start + first.length + 1) lines := by
      simp [piecesOf]
    rw [pieces, State.takePieces_append]
    cases blank : first.all isBlank with
    | true =>
      rw [takePieces_blank blank, Except.bind]
      rcases later done true with ⟨cs, b', clauses, run⟩ |
        ⟨before, line, after, cs, r, e, rfl, clauses, filled, read, refused, run⟩
      · exact .inl ⟨cs, b', .blank first blank clauses, run⟩
      · exact .inr ⟨first :: before, line, after, cs, r, e, rfl, .blank first blank clauses, filled, read,
          refused.later, run⟩
    | false =>
      rcases readLine (oneLines first (.head _)) blank (plain first (.head _)) b with
        ⟨c, read, ended⟩ | ⟨r, e, read, refused, stopped⟩
      · rw [ended, Except.bind]
        rcases later (c.moved start :: done) true with ⟨cs, b', clauses, run⟩ |
          ⟨before, line, after, cs, r, e, rfl, clauses, filled, last, refused, run⟩
        · refine .inl ⟨c.moved start :: cs, b', .filled first c blank read clauses, ?_⟩
          rw [run, List.reverse_cons, List.append_assoc]
          rfl
        · exact .inr ⟨first :: before, line, after, c.moved start :: cs, r, e, rfl,
            .filled first c blank read clauses, filled, last, refused.later, run⟩
      · rw [stopped]
        exact .inr ⟨[], first, lines, [], r, e, rfl, .nil, blank, read, refused, rfl⟩

theorem readClauses_sheet (text : List Char) :
    (∃ cs, ClausesOf 0 (splitLines (sheetBody text)) cs ∧
      readClauses .sheet (sheetBody text ++ endLine) = .ok cs) ∨
    ∃ before line after cs r e, splitLines (sheetBody text) = before ++ line :: after ∧
      ClausesOf 0 before cs ∧ line.all isBlank = false ∧ readClauses .line line = .error r ∧
        Refused (lineStart before) line r e ∧
          readClauses .sheet (sheetBody text ++ endLine) = .error e := by
  obtain ⟨offset, pieces⟩ := scan_sheet text
  simp only [readClauses, bind, pure, pieces, State.takePieces_append]
  have plain : ∀ line ∈ splitLines (sheetBody text), isEndLine line = false := fun line =>
    (bodyOf_sheetBody text).plain
  rcases takePieces_lines (fun l => oneLine_of_mem_splitLines) plain 0 [] false with
    ⟨cs, b, clauses, run⟩ | ⟨before, line, after, cs, r, e, split, clauses, filled, read, refused, run⟩
  · refine .inl ⟨cs, clauses, ?_⟩
    have sealed : ∀ done, (State.fresh .sheet done b).takePieces [⟨.lexeme .endMark, offset⟩] =
        .ok (.sealed done) := fun _ => rfl
    rw [State.start, run]
    simp only [Except.bind, sealed, State.finish, mapError_ok, List.append_nil, List.reverse_reverse]
    rfl
  · rw [Nat.zero_add] at refused
    refine .inr ⟨before, line, after, cs, r, e, split, clauses, filled, read, refused, ?_⟩
    rw [State.start, run]
    rfl

/-! Judging heads. -/

/-- A line that is refused for its head, if at all. Blank lines do not count. -/
def Readable (line : List Char) : Prop :=
  line.all isBlank = false → ∀ r, parseStatement line = .error r → r.cause = .invalidTarget

/-- A line that is a statement. Blank lines do not count. -/
def Acceptable (line : List Char) : Prop :=
  line.all isBlank = false → ∃ s, parseStatement line = .ok s

theorem parseStatement_of_ok (read : readClauses .line line = .ok [c]) :
    parseStatement line = c.statement := by
  simp only [parseStatement, readStatements, read, bind, Except.bind, List.mapM_cons, List.mapM_nil]
  cases c.statement <;> rfl

theorem parseStatement_of_error {r : Rejection} (read : readClauses .line line = .error r) :
    parseStatement line = .error r := by
  simp only [parseStatement, readStatements, read, bind, Except.bind]

theorem statement_moved (c : Clause) (start : Nat) : (c.moved start).statement =
    c.statement.mapError fun r => { r with position := start + r.position } := by
  cases c with
  | expression => rfl
  | declaration head => cases head <;> rfl

/-- Whatever a line that can be read is refused for, it is its head. -/
theorem ClausesOf.heads (clauses : ClausesOf start lines cs) : ∀ line ∈ lines, Readable line := by
  induction clauses with
  | nil => exact nofun
  | blank line blank _ ih =>
    refine List.forall_mem_cons.mpr ⟨fun filled => ?_, ih⟩
    cases blank.symm.trans filled
  | filled line c _ read _ ih =>
    refine List.forall_mem_cons.mpr ⟨fun _ r refused => ?_, ih⟩
    rw [parseStatement_of_ok read] at refused
    exact (statement_error refused).1

/-- Heads are judged line by line, up to the first that cannot be declared. -/
theorem ClausesOf.judge (clauses : ClausesOf start lines cs) :
    (∃ sheet, cs.mapM Clause.statement = .ok sheet ∧
      (lines.filter fun line => !line.all isBlank).map parseStatement = sheet.map .ok) ∨
    ∃ before line after r e, lines = before ++ line :: after ∧
      (∀ l ∈ before, Acceptable l) ∧
        line.all isBlank = false ∧ parseStatement line = .error r ∧ r.cause = .invalidTarget ∧
          Refused (start + lineStart before) line r e ∧ cs.mapM Clause.statement = .error e := by
  induction clauses with
  | nil => exact .inl ⟨[], rfl, rfl⟩
  | blank line blank _ ih =>
    rcases ih with ⟨sheet, judged, same⟩ |
      ⟨before, culprit, after, r, e, rfl, good, filled, refused, cause, moved, judged⟩
    · exact .inl ⟨sheet, judged, by simpa [blank] using same⟩
    · refine .inr ⟨line :: before, culprit, after, r, e, rfl, ?_, filled, refused, cause, moved.later,
        judged⟩
      refine List.forall_mem_cons.mpr ⟨fun full => ?_, good⟩
      cases blank.symm.trans full
  | filled line c full read _ ih =>
    have alone := parseStatement_of_ok read
    rw [List.mapM_cons, statement_moved]
    cases first : c.statement with
    | error r =>
      rw [first] at alone
      have cause := (statement_error first).1
      exact .inr ⟨[], line, _, r, { r with position := _ + r.position }, rfl, nofun, full, alone, cause,
        .moved (cause ▸ nofun) ⟨rfl, rfl⟩, rfl⟩
    | ok s =>
      rw [first] at alone
      rcases ih with ⟨sheet, judged, same⟩ |
        ⟨before, culprit, after, r, e, rfl, good, filled, refused, cause, moved, judged⟩
      · refine .inl ⟨s :: sheet, ?_, ?_⟩
        · rw [judged]
          rfl
        · simpa [full, alone] using same
      · refine .inr ⟨line :: before, culprit, after, r, e, rfl,
          List.forall_mem_cons.mpr ⟨fun _ => ⟨s, alone⟩, good⟩, filled, refused, cause, moved.later, ?_⟩
        rw [judged]
        rfl

/-! Whole sheets. -/

/-- Which line of a sheet is to blame: the first that cannot be read or, if all can be read, the first
whose head cannot be declared. -/
inductive ToBlame (before after : List (List Char)) (line : List Char) (r : Rejection) : Prop where
  | misread : r.cause ≠ .invalidTarget →
    (∀ l ∈ before, Readable l) → ToBlame before after line r
  | misdeclared : r.cause = .invalidTarget → (∀ l ∈ before, Acceptable l) →
    (∀ l ∈ before ++ line :: after, Readable l) → ToBlame before after line r

/-- A text is refused within it, unless it ends too early. -/
theorem parseStatement_error_lt {r : Rejection} (refused : parseStatement line = .error r)
    (cause : r.cause ≠ .unexpected .endOfText "") : r.position < line.length := by
  cases readStatements_error ((parseStatement_error_iff line r).mp refused) with
  | piece p member _ position => exact position ▸ mem_scan_lt member
  | tooEarly early _ => exact absurd early cause
  | target p member _ _ position => exact position ▸ mem_scan_lt member

theorem Refused.within {before after : List (List Char)} {r e : Rejection}
    (refused : Refused (lineStart before) line r e) (alone : parseStatement line = .error r)
    (split : splitLines text = before ++ line :: after) : e.position ≤ text.length := by
  have inText := lineStart_add_length_le split
  cases refused with
  | tooEarly _ _ position => exact position ▸ inText
  | moved cause moved =>
    have inLine := parseStatement_error_lt alone cause
    have := moved.position
    omega

theorem readStatements_sheet (text : List Char) :
    (∃ sheet, readStatements .sheet (sheetBody text ++ endLine) = .ok sheet ∧
      (filledLines (sheetBody text)).map parseStatement = sheet.map .ok) ∨
    ∃ before line after r e, splitLines (sheetBody text) = before ++ line :: after ∧
      line.all isBlank = false ∧ parseStatement line = .error r ∧ ToBlame before after line r ∧
        Refused (lineStart before) line r e ∧
          readStatements .sheet (sheetBody text ++ endLine) = .error e := by
  rcases readClauses_sheet text with
    ⟨cs, clauses, read⟩ | ⟨before, line, after, cs, r, e, split, clauses, filled, alone, refused, read⟩
  · have statements : readStatements .sheet (sheetBody text ++ endLine) =
        cs.mapM Clause.statement := by
      rw [readStatements, read]
      rfl
    rcases clauses.judge with ⟨sheet, judged, same⟩ |
      ⟨before, line, after, r, e, split, good, filled, alone, cause, refused, judged⟩
    · exact .inl ⟨sheet, statements.trans judged, same⟩
    · rw [Nat.zero_add] at refused
      exact .inr ⟨before, line, after, r, e, split, filled, alone,
        .misdeclared cause good (split ▸ clauses.heads), refused, statements.trans judged⟩
  · have misread : r.cause ≠ .invalidTarget := by
      rcases readClauses_error alone with ⟨p, -, cause, -⟩ | ⟨cause, -⟩
      · rw [cause]
        cases p.piece <;> rintro ⟨⟩
      · rw [cause]
        rintro ⟨⟩
    have statements : readStatements .sheet (sheetBody text ++ endLine) = .error e := by
      rw [readStatements, read]
      rfl
    exact .inr ⟨before, line, after, r, e, split, filled, parseStatement_of_error alone,
      .misread misread clauses.heads, refused, statements⟩

/-- A fault never stands behind the part that is read. -/
theorem readStatements_sheet_within {r : Rejection}
    (refused : readStatements .sheet (sheetBody text ++ endLine) = .error r) :
    r.position ≤ (sheetBody text).length := by
  rcases readStatements_sheet text with
    ⟨sheet, read, -⟩ | ⟨before, line, after, q, e, split, -, alone, -, fault, refused'⟩
  · cases refused.symm.trans read
  · obtain rfl : r = e := Except.error.inj (refused.symm.trans refused')
    exact fault.within alone split

/-- So the position of a fault is not cut short. -/
theorem parseSheet_error_iff (text : List Char) (r : Rejection) : parseSheet text = .error r ↔
    readStatements .sheet (sheetBody text ++ endLine) = .error r := by
  rw [parseSheet]
  cases read : readStatements .sheet (sheetBody text ++ endLine) with
  | ok sheet => simp [mapError_ok]
  | error q => rw [mapError_error, Nat.min_eq_left (readStatements_sheet_within read)]

/-- A sheet is read if each of its lines is; and if it is not, then for the fault of one line. -/
theorem parseSheet_lines (text : List Char) :
    (∃ sheet, parseSheet text = .ok sheet ∧
      (filledLines (sheetBody text)).map parseStatement = sheet.map .ok) ∨
    ∃ before line after r e, splitLines (sheetBody text) = before ++ line :: after ∧
      line.all isBlank = false ∧ parseStatement line = .error r ∧ ToBlame before after line r ∧
        Refused (lineStart before) line r e ∧ parseSheet text = .error e := by
  rcases readStatements_sheet text with
    ⟨sheet, read, same⟩ | ⟨before, line, after, r, e, split, filled, alone, blame, fault, refused⟩
  · exact .inl ⟨sheet, (parseSheet_eq_ok_iff text sheet).mpr read, same⟩
  · exact .inr ⟨before, line, after, r, e, split, filled, alone, blame, fault,
      (parseSheet_error_iff text e).mpr refused⟩

/-- A sheet is its lines: it is read if and only if each line that holds anything is a statement, and it
is those statements in order. -/
theorem sheet_is_its_lines (text : List Char) : BodyOf text (sheetBody text) ∧
    ((∃ sheet, parseSheet text = .ok sheet) ↔
      ∀ line ∈ filledLines (sheetBody text), ∃ s, parseStatement line = .ok s) ∧
    ∀ sheet, parseSheet text = .ok sheet →
      (filledLines (sheetBody text)).map parseStatement = sheet.map .ok := by
  rcases parseSheet_lines text with
    ⟨sheet, read, same⟩ | ⟨before, line, after, r, e, split, filled, alone, -, -, refused⟩
  · refine ⟨bodyOf_sheetBody text, ⟨fun _ line member => ?_, fun _ => ⟨sheet, read⟩⟩, fun other otherRead => ?_⟩
    · have result : parseStatement line ∈ _ := List.mem_map_of_mem member
      rw [same] at result
      obtain ⟨s, -, ok⟩ := List.mem_map.mp result
      exact ⟨s, ok.symm⟩
    · obtain rfl : other = sheet := Except.ok.inj (otherRead.symm.trans read)
      exact same
  · have member : line ∈ filledLines (sheetBody text) := by
      simp [filledLines, split, filled]
    refine ⟨bodyOf_sheetBody text, ⟨fun ⟨sheet, read⟩ => ?_, fun good => ?_⟩, fun sheet read => ?_⟩
    · cases refused.symm.trans read
    · obtain ⟨s, ok⟩ := good line member
      cases alone.symm.trans ok
    · cases refused.symm.trans read

/-! The line that is to blame. -/

theorem append_ne_of_head {s t u : String} {c : Char} (first : s.toList.head? = some c)
    (different : u.toList.head? ≠ some c) : s ++ t ≠ u := by
  rintro rfl
  rw [String.toList_append, List.head?_append, first] at different
  exact different rfl

theorem Cause.message_eq_target_iff (cause : Cause) :
    cause.message = "invalid declaration target" ↔ cause = .invalidTarget := by
  refine ⟨fun same => ?_, fun same => same ▸ rfl⟩
  cases cause with
  | invalidTarget => rfl
  | unexpected t s => exact absurd same (append_ne_of_head rfl (by decide))
  | character c => exact absurd same (append_ne_of_head rfl (by decide))
  | unknownSymbol word =>
    exact absurd (String.append_assoc.symm.trans same) (append_ne_of_head rfl (by decide))

/-- A line that cannot be read, whatever its head. -/
def Misread (line : List Char) : Prop :=
  line.all isBlank = false ∧
    ∃ r, parseStatement line = .error r ∧ (r.report line).message ≠ "invalid declaration target"

/-- A line that can be read, but whose head cannot be declared. -/
def Misdeclared (line : List Char) : Prop :=
  line.all isBlank = false ∧
    ∃ r, parseStatement line = .error r ∧ (r.report line).message = "invalid declaration target"

theorem misread_iff (line : List Char) : Misread line ↔
    line.all isBlank = false ∧ ∃ r, parseStatement line = .error r ∧ r.cause ≠ .invalidTarget :=
  and_congr_right' <| exists_congr fun r => and_congr_right' <|
    not_congr (Cause.message_eq_target_iff r.cause)

theorem misdeclared_iff (line : List Char) : Misdeclared line ↔
    line.all isBlank = false ∧ ∃ r, parseStatement line = .error r ∧ r.cause = .invalidTarget :=
  and_congr_right' <| exists_congr fun r => and_congr_right' (Cause.message_eq_target_iff r.cause)

theorem Rejection.report_place {before after : List (List Char)} {r : Rejection} {k : Nat}
    (split : splitLines text = before ++ line :: after) (within : k ≤ line.length)
    (position : r.position = lineStart before + k) :
    (r.report text).line = some (before.length + 1 : Int) ∧
      (r.report text).column = some (k + 1 : Int) := by
  have located := locate_line split within
  rw [← position] at located
  exact ⟨congrArg (fun p : Place => some p.line) located,
    congrArg (fun p : Place => some p.column) located⟩

/-- A fault of a sheet is reported for a line of it: the first that cannot be read, even behind one whose
head cannot be declared, and the first such head only if all lines can be read. It is reported as for the
line alone; but where the line alone ends too early, the newline behind it is unexpected. -/
structure ReportedFor (text : List Char) (e : Rejection) (before : List (List Char)) (line : List Char)
    (r : Rejection) : Prop where
  alone : parseStatement line = .error r
  misread : (∃ l ∈ splitLines (sheetBody text), Misread l) →
    Misread line ∧ ∀ l ∈ before, ¬Misread l
  misdeclared : (¬∃ l ∈ splitLines (sheetBody text), Misread l) →
    Misdeclared line ∧ ∀ l ∈ before, ¬Misdeclared l
  lineOfText : (splitLines text)[before.length]? = some line
  row : (e.report text).line = some (before.length + 1 : Int)
  tooEarly : r.cause = .unexpected .endOfText "" →
    (e.report text).message = "unexpected newline" ∧ (e.report text).found = some "newline" ∧
      (e.report text).column = some (line.length + 1 : Int)
  otherwise : r.cause ≠ .unexpected .endOfText "" →
    (e.report text).message = (r.report line).message ∧
      (e.report text).found = (r.report line).found ∧
        (e.report text).column = (r.report line).column

theorem ToBlame.misread_first {before after : List (List Char)} {r : Rejection}
    (blame : ToBlame before after line r) (filled : line.all isBlank = false)
    (alone : parseStatement line = .error r) (unread : ∃ l ∈ before ++ line :: after, Misread l) :
    Misread line ∧ ∀ l ∈ before, ¬Misread l := by
  cases blame with
  | misread cause heads =>
    refine ⟨(misread_iff line).mpr ⟨filled, r, alone, cause⟩, fun l member misread => ?_⟩
    obtain ⟨full, q, fault, other⟩ := (misread_iff l).mp misread
    exact other (heads l member full q fault)
  | misdeclared _ _ heads =>
    obtain ⟨l, member, misread⟩ := unread
    obtain ⟨full, q, fault, other⟩ := (misread_iff l).mp misread
    exact absurd (heads l member full q fault) other

theorem ToBlame.misdeclared_first {before after : List (List Char)} {r : Rejection}
    (blame : ToBlame before after line r) (filled : line.all isBlank = false)
    (alone : parseStatement line = .error r) (read : ¬∃ l ∈ before ++ line :: after, Misread l) :
    Misdeclared line ∧ ∀ l ∈ before, ¬Misdeclared l := by
  cases blame with
  | misread cause heads =>
    exact absurd ⟨line, by simp, (misread_iff line).mpr ⟨filled, r, alone, cause⟩⟩ read
  | misdeclared cause good _ =>
    refine ⟨(misdeclared_iff line).mpr ⟨filled, r, alone, cause⟩, fun l member misdeclared => ?_⟩
    obtain ⟨full, q, fault, -⟩ := (misdeclared_iff l).mp misdeclared
    obtain ⟨s, ok⟩ := good l member full
    cases fault.symm.trans ok

theorem sheet_fault_is_of_a_line (text : List Char) (e : Rejection)
    (refused : parseSheet text = .error e) : BodyOf text (sheetBody text) ∧
    ∃ before line after r, splitLines (sheetBody text) = before ++ line :: after ∧
      ReportedFor text e before line r := by
  rcases parseSheet_lines text with
    ⟨sheet, read, -⟩ | ⟨before, line, after, r, e', split, filled, alone, blame, fault, refused'⟩
  · cases refused.symm.trans read
  obtain rfl : e' = e := Except.error.inj (refused'.symm.trans refused)
  have nonempty : line ≠ [] := by
    rintro rfl
    cases filled
  obtain ⟨behind, whole⟩ := (bodyOf_sheetBody text).sameLine split nonempty
  have first : (splitLines text)[before.length]? = some line := by simp [whole]
  refine ⟨bodyOf_sheetBody text, before, line, after, r, split, ?_⟩
  cases fault with
  | tooEarly early cause position =>
    obtain ⟨row, column⟩ := Rejection.report_place whole (Nat.le_refl _) position
    have message : (e'.report text).message = "unexpected newline" := congrArg Cause.message cause
    have found : (e'.report text).found = some "newline" :=
      congrArg (fun c : Cause => some c.found) cause
    exact ⟨alone, split ▸ blame.misread_first filled alone,
      split ▸ blame.misdeclared_first filled alone, first, row, fun _ => ⟨message, found, column⟩,
      fun late => absurd early late⟩
  | moved late moved =>
    have within := Nat.le_of_lt (parseStatement_error_lt alone late)
    have oneLine := oneLine_of_split split
    have single : splitLines line = [] ++ [line] := splitLines_of_oneLine oneLine
    obtain ⟨row, column⟩ := Rejection.report_place whole within moved.position
    obtain ⟨-, same⟩ := Rejection.report_place single within (Nat.zero_add r.position).symm
    have message : (e'.report text).message = (r.report line).message :=
      congrArg Cause.message moved.cause
    have found : (e'.report text).found = (r.report line).found :=
      congrArg (fun c : Cause => some c.found) moved.cause
    exact ⟨alone, split ▸ blame.misread_first filled alone,
      split ▸ blame.misdeclared_first filled alone, first, row, fun early => absurd early late,
      fun _ => ⟨message, found, column.trans same.symm⟩⟩

theorem sheet_fault_behind_a_head : ∃ e, parseSheet "1=2\n(a".toList = .error e ∧
    (e.report "1=2\n(a".toList).line = some 2 ∧
      (e.report "1=2\n(a".toList).message = "unexpected newline" ∧
        BodyOf "1=2\n(a".toList (sheetBody "1=2\n(a".toList) ∧
          (∃ before line after r, splitLines (sheetBody "1=2\n(a".toList) = before ++ line :: after ∧
            ReportedFor "1=2\n(a".toList e before line r) :=
  ⟨_, rfl, rfl, rfl, sheet_fault_is_of_a_line _ _ rfl⟩

end Formulary
