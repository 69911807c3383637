import Formulary.Proofs.Answers
import Formulary.Proofs.Joining

/-! The reader does not look ahead. What it finds in the front of a text it finds whatever follows: the
faults of first lines do not depend on later ones, and a control word that names nothing is a fault
wherever the reader gets to. -/
namespace Formulary

variable {u rest : List Char} {c : Char} {r : Rejection} {goal : Goal}

/-! The pieces of the front. -/

theorem scan_append_cons (parts : Parts c) (notBrace : c ≠ '{') (u rest : List Char) :
    scan (u ++ c :: rest) = scan u ++ scanFrom 0 u.length false (c :: rest) := by
  have cut := scanFrom_append_cons parts notBrace 0 0 false (Nat.zero_le u.length) rest
  rwa [Nat.zero_add] at cut

theorem le_of_mem_scanFrom {p : Placed} {passed offset : Nat} {b : Bool}
    (found : p ∈ scanFrom passed offset b u) : offset ≤ p.start := by
  obtain ⟨k, _, _, _, start, -⟩ := mem_scanFrom found
  omega

theorem takePieces_append_error {s : State} {before : List Placed}
    (refused : s.takePieces before = .error r) (after : List Placed) :
    s.takePieces (before ++ after) = .error r := by
  rw [State.takePieces_append]
  exact bind_eq_error.mpr (.inl refused)

/-- A fault before some pieces does not depend on them. -/
theorem takePieces_error_front {s : State} {before after : List Placed}
    (refused : s.takePieces (before ++ after) = .error r)
    (early : ∀ p ∈ after, r.position < p.start) : s.takePieces before = .error r := by
  rw [State.takePieces_append] at refused
  rcases bind_eq_error.mp refused with stopped | ⟨t, -, later⟩
  · exact stopped
  · obtain ⟨p, member, -, position⟩ := takePieces_error later
    have late := early p member
    omega

/-- A fault of the first lines, the newline behind them included, is found whatever follows. -/
theorem readClauses_front (refused : readClauses goal (u ++ '\n' :: rest) = .error r)
    (early : r.position ≤ u.length) (late : r.cause ≠ .unexpected .endOfText "")
    (other : List Char) : readClauses goal (u ++ '\n' :: other) = .error r := by
  have pieces : ∀ rest, scan (u ++ '\n' :: rest) =
      (scan u ++ [⟨.lexeme .newline, u.length⟩]) ++ scanFrom 0 (u.length + 1) false rest := by
    intro rest
    rw [scan_append_cons parts_newline (by decide), List.append_assoc]
    rfl
  rcases readClauses_stop refused with ⟨before, p, after, t, split, taken, fault⟩ | ⟨t, t', -, -, rfl⟩
  · have stopped : (State.start goal).takePieces (scan (u ++ '\n' :: rest)) = .error r := by
      rw [split, State.takePieces_append]
      exact bind_eq_error.mpr (.inr ⟨t, taken, bind_eq_error.mpr (.inl fault)⟩)
    rw [pieces] at stopped
    apply readClauses_of_error
    rw [pieces]
    apply takePieces_append_error
    apply takePieces_error_front stopped
    intro q member
    have behind := le_of_mem_scanFrom member
    omega
  · exact absurd rfl late

/-! The front of a sheet. -/

theorem sheetBody_append_newline (plain : ∀ line ∈ splitLines u, isEndLine line = false)
    (rest : List Char) : sheetBody (u ++ '\n' :: rest) = u ++ '\n' :: sheetBody rest := by
  have lines : ∀ z, u ++ '\n' :: z = unlines (splitLines u) ++ z := by
    intro z
    rw [splitLines_text, List.append_assoc]
    rfl
  have part := (bodyOf_sheetBody rest).behind (fun _ => oneLine_of_mem_splitLines) plain
  rw [← lines, ← lines] at part
  exact (bodyOf_sheetBody _).unique part

theorem sheetBody_append_ended {line : List Char} (member : line ∈ splitLines u)
    (ends : isEndLine line = true) (rest : List Char) :
    sheetBody (u ++ '\n' :: rest) = sheetBody u := by
  generalize found : sheetBody u = body
  have part := bodyOf_sheetBody u
  rw [found] at part
  cases part with
  | whole plain => cases (plain line member).symm.trans ends
  | upTo before last after split ends plain =>
    have lines : splitLines (u ++ '\n' :: rest) = before ++ last :: (after ++ splitLines rest) := by
      have all := splitLines_unlines_append
        (fun l (member : l ∈ splitLines u) => oneLine_of_mem_splitLines member) rest
      rw [splitLines_text, List.append_assoc, split] at all
      simpa using all
    exact (bodyOf_sheetBody _).unique (.upTo before last _ lines ends plain)

theorem Rejection.report_congr {a b : List Char} (same : a.take r.position = b.take r.position) :
    r.report a = r.report b := by
  simp only [Rejection.report, Report.ofCause, locate_congr same]

/-- The first fault of a sheet does not depend on later lines, unless it is that of a head. -/
theorem fault_ignores_later_lines (u rest other : List Char) (r : Rejection)
    (refused : parseSheet (u ++ '\n' :: rest) = .error r)
    (misread : (r.report (u ++ '\n' :: rest)).message ≠ "invalid declaration target")
    (early : r.position ≤ u.length) :
    ∃ r', parseSheet (u ++ '\n' :: other) = .error r' ∧
      r'.report (u ++ '\n' :: other) = r.report (u ++ '\n' :: rest) := by
  have head : r.cause ≠ .invalidTarget := fun cause =>
    misread ((Cause.message_eq_target_iff r.cause).mpr cause)
  have late : r.cause ≠ .unexpected .endOfText "" := by
    rcases parseSheet_error refused with ⟨-, late⟩ | ⟨newline, -⟩
    · exact late
    · rw [newline]
      decide
  have front : (u ++ '\n' :: other).take r.position = (u ++ '\n' :: rest).take r.position := by
    rw [List.take_append_of_le_length early, List.take_append_of_le_length early]
  refine ⟨r, ?_, Rejection.report_congr front⟩
  rw [parseSheet_error_iff] at refused ⊢
  by_cases plain : ∀ line ∈ splitLines u, isEndLine line = false
  · rw [sheetBody_append_newline plain] at refused ⊢
    rw [List.append_assoc, List.cons_append] at refused ⊢
    apply readStatements_of_error
    exact readClauses_front (readClauses_of_misread refused head) early late _
  · -- An end line in front hides whatever follows.
    obtain ⟨line, member, ended⟩ : ∃ line ∈ splitLines u, isEndLine line = true := by
      simpa using plain
    rw [sheetBody_append_ended member ended] at refused ⊢
    exact refused

theorem fault_ignores_later_lines_unclosed :
    ∃ r, parseSheet ['(', '1', '\n', '1'] = .error r ∧
      (r.report ['(', '1', '\n', '1']).message ≠ "invalid declaration target" ∧
      r.position ≤ ['(', '1'].length ∧
      ∃ r', parseSheet ['(', '1', '\n', 'E', 'O', 'F'] = .error r' ∧
        r'.report ['(', '1', '\n', 'E', 'O', 'F'] = r.report ['(', '1', '\n', '1'] :=
  ⟨_, rfl, by decide, by decide,
    fault_ignores_later_lines ['(', '1'] ['1'] ['E', 'O', 'F'] _ rfl (by decide) (by decide)⟩

/-! Texts that break off inside a line. -/

/-- Only blanks can stand before the end mark of an end line. -/
theorem isEndLine_append {line : List Char} (plain : isEndLine line = false)
    (other : c ∉ ['E', 'O', 'F']) (ends : isEndLine (line ++ c :: rest) = true) :
    line.all isBlank = true ∧ isBlank c = true := by
  simp only [List.mem_cons, List.not_mem_nil, or_false, not_or] at other
  have unmarked : (line.dropWhile isBlank).take 3 ≠ ['E', 'O', 'F'] := of_decide_eq_false plain
  have mark : ((line ++ c :: rest).dropWhile isBlank).take 3 = ['E', 'O', 'F'] :=
    of_decide_eq_true ends
  rw [List.dropWhile_append] at mark
  cases visible : line.dropWhile isBlank with
  | nil =>
    rw [visible] at mark
    have blanks : ∀ d ∈ line, isBlank d = true := by
      intro d member
      rw [← List.takeWhile_append_dropWhile (p := isBlank) (l := line), visible,
        List.append_nil] at member
      exact mem_takeWhile member
    refine ⟨List.all_eq_true.mpr blanks, ?_⟩
    by_cases blank : isBlank c = true
    · exact blank
    · simp [blank, other] at mark
  | cons d ds =>
    rw [visible] at unmarked mark
    match ds with
    | [] | [_] | _ :: _ :: _ => simp_all

/-- A text that goes on behind whole lines and part of a line is read up to there at least, unless that
line is an end line now. -/
theorem sheetBody_front {w : List Char} (plain : ∀ line ∈ splitLines u, isEndLine line = false)
    (oneLine : '\n' ∉ w) (rest : List Char) : (u ++ w) <+: sheetBody (u ++ (w ++ rest)) ∨
      ∃ before line first, u = unlines before ++ line ∧ (∀ l ∈ before, '\n' ∉ l) ∧
        isEndLine line = false ∧ isEndLine (line ++ (w ++ first)) = true ∧
          sheetBody (u ++ (w ++ rest)) = unlines before := by
  obtain ⟨before, line, split, rfl, lineFree⟩ := exists_lastLine u
  obtain ⟨first, after, restLines⟩ := List.exists_cons_of_ne_nil (splitLines_ne_nil rest)
  have oneLines : ∀ l ∈ before, '\n' ∉ l := fun l member =>
    oneLine_of_mem_splitLines (split ▸ List.mem_append_left _ member)
  have plainBefore : ∀ l ∈ before, isEndLine l = false := fun l member =>
    plain l (split ▸ List.mem_append_left _ member)
  have lines : splitLines (line ++ (w ++ rest)) = (line ++ (w ++ first)) :: after := by
    have free : '\n' ∉ line ++ w := by simp [lineFree, oneLine]
    simpa using splitLines_append_line free restLines
  have whole : ∀ {body}, BodyOf (line ++ (w ++ rest)) body →
      sheetBody (unlines before ++ line ++ (w ++ rest)) = unlines before ++ body := by
    intro body part
    rw [List.append_assoc]
    exact (bodyOf_sheetBody _).unique (part.behind oneLines plainBefore)
  cases ends : isEndLine (line ++ (w ++ first)) with
  | false =>
    obtain ⟨tail, same⟩ := (bodyOf_sheetBody _).firstLine lines ends
    left
    rw [whole (bodyOf_sheetBody _), ← same]
    exact ⟨first ++ tail, by simp⟩
  | true =>
    right
    have empty := whole (BodyOf.upTo [] _ after lines ends nofun)
    have plainLine := plain line (by simp [split])
    refine ⟨before, line, first, rfl, oneLines, plainLine, ends, ?_⟩
    simpa [unlines] using empty

/-- A text is read as a sheet, as a statement or as an expression. -/
def Accepts (goal : Goal) (text : List Char) : Prop :=
  match goal with
  | .sheet => ∃ sheet, parseSheet text = .ok sheet
  | .line => ∃ s, parseStatement text = .ok s
  | .formula => ∃ e, parseExpression text = .ok e

theorem Accepts.taken {text : List Char} (accepts : Accepts goal text) :
    ∃ t, (State.start goal).takePieces (scan (goal.source text)) = .ok t := by
  have read : ∃ sts, readStatements goal (goal.source text) = .ok sts := by
    cases answer : readStatements goal (goal.source text) with
    | ok sts => exact ⟨sts, rfl⟩
    | error r =>
      have refused := (refuses_iff goal text r).mpr answer
      cases goal with
      | sheet | line | formula =>
        obtain ⟨a, ok⟩ := accepts
        cases ok.symm.trans refused
  obtain ⟨sts, ok⟩ := read
  obtain ⟨t, clauses, taken, -⟩ := readStatements_run ok
  exact ⟨t, taken⟩

/-- The reader gets through a text that can be completed. -/
theorem Accepts.front (accepts : Accepts goal (u ++ ' ' :: rest))
    (plain : ∀ line ∈ splitLines u, isEndLine line = false) :
    ∃ t, (State.start goal).takePieces (scan u) = .ok t := by
  obtain ⟨t, taken⟩ := accepts.taken
  have blank : Parts ' ' := parts_of_isBlank rfl
  have cut : ∀ z, goal.source (u ++ ' ' :: rest) = u ++ ' ' :: z →
      ∃ t, (State.start goal).takePieces (scan u) = .ok t := by
    intro z source
    rw [source, scan_append_cons blank (by decide)] at taken
    obtain ⟨s, front, -⟩ := State.takePieces_append_eq_ok.mp taken
    exact ⟨s, front⟩
  cases goal with
  | line | formula => exact cut rest rfl
  | sheet =>
    rcases sheetBody_front (w := [' ']) plain (by decide) rest with
      ⟨tail, body⟩ | ⟨before, line, first, rfl, oneLines, plainLine, ends, body⟩
    · apply cut (tail ++ endLine)
      have same : sheetBody (u ++ ' ' :: rest) = u ++ [' '] ++ tail := body.symm
      simp [Goal.source, same]
    · -- The last line holds blanks only, which are no pieces.
      have blanks := (isEndLine_append plainLine (by decide) ends).1
      have same : sheetBody (unlines before ++ line ++ ' ' :: rest) = unlines before := body
      rw [Goal.source, same, scan, scanFrom_lines oneLines] at taken
      rw [scan, scanFrom_lines oneLines, scanFrom_allBlank blanks, List.append_nil]
      obtain ⟨s, front, -⟩ := State.takePieces_append_eq_ok.mp taken
      exact ⟨s, front⟩

/-- A control word as it is scanned, without its backslash. -/
def IsWord (name : List Char) : Prop :=
  (∃ c cs, name = c :: cs ∧ isLetter c = true) ∧ ∀ c ∈ name, isWordChar c = true

theorem scanFrom_unknown {name : List Char} (word : IsWord name)
    (unknown : Symbol.ofName? (String.ofList name) = none)
    (ends : ∀ c ∈ rest.head?, isWordChar c = false) (offset : Nat) :
    ∃ ps, scanFrom 0 offset false ('\\' :: (name ++ rest)) = ⟨.unknown name, offset⟩ :: ps := by
  obtain ⟨⟨d, ds, rfl, letter⟩, chars⟩ := word
  have whole : (d :: ds ++ rest).takeWhile isWordChar = d :: ds := takeWhile_append_stop chars ends
  have piece : pieceAt false '\\' (d :: ds ++ rest) = .unknown (d :: ds) := by
    rw [pieceAt, isDigit_backslash, isLetter_backslash, if_neg Bool.false_ne_true,
      if_neg Bool.false_ne_true, if_pos (by simp [letter]), whole]
    simp only [wordPiece, unknown]
  rw [scanFrom, piece]
  exact ⟨_, rfl⟩

/-- A control word that stands in a sheet stands in the part that is read. -/
theorem source_word {name : List Char} (plain : ∀ line ∈ splitLines u, isEndLine line = false)
    (word : IsWord name) (ends : ∀ c ∈ rest.head?, isWordChar c = false) (goal : Goal) :
    ∃ z, goal.source (u ++ '\\' :: (name ++ rest)) = u ++ '\\' :: (name ++ z) ∧
      ∀ c ∈ z.head?, isWordChar c = false := by
  cases goal with
  | line | formula => exact ⟨rest, rfl, ends⟩
  | sheet =>
    have oneLine : '\n' ∉ '\\' :: name := by
      intro member
      rcases List.mem_cons.mp member with same | member
      · cases same
      · cases word.2 _ member
    rcases sheetBody_front plain oneLine rest with
      ⟨tail, body⟩ | ⟨before, line, first, -, -, plainLine, ended, -⟩
    · have source : Goal.sheet.source (u ++ '\\' :: (name ++ rest)) =
          u ++ '\\' :: (name ++ (tail ++ endLine)) := by
        have same : sheetBody (u ++ '\\' :: (name ++ rest)) = u ++ '\\' :: name ++ tail := body.symm
        simp [Goal.source, same]
      refine ⟨tail ++ endLine, source, ?_⟩
      obtain ⟨back, text⟩ := (bodyOf_sheetBody (u ++ ('\\' :: name ++ rest))).start
      rw [← body, List.append_assoc, List.append_assoc, List.append_cancel_left_eq,
        List.append_cancel_left_eq] at text
      subst text
      cases tail with
      | nil =>
        intro c first
        cases first
        decide
      | cons d tail => exact ends
    · cases (isEndLine_append plainLine (by decide) ended).2

/-- A control word that names nothing is a fault wherever the reader gets to, whatever follows. -/
theorem unknown_symbol_is_committed (goal : Goal) (u name rest : List Char)
    (completes : ∃ s, Accepts goal (u ++ ' ' :: s))
    (plain : ∀ line ∈ splitLines u, isEndLine line = false) (word : IsWord name)
    (noOperator : Symbol.operator? (String.ofList name) = none) (notVec : String.ofList name ≠ "vec")
    (ends : ∀ c ∈ rest.head?, isWordChar c = false) :
    ∃ r, Refuses goal (u ++ '\\' :: (name ++ rest)) r ∧
      (r.report (u ++ '\\' :: (name ++ rest))).message =
        "unknown symbol '" ++ String.ofList ('\\' :: name) ++ "'" ∧
      (r.report (u ++ '\\' :: (name ++ rest))).position = some (u.length : Int) ∧
      (r.report (u ++ '\\' :: (name ++ rest))).found =
        some (quoted (String.ofList ('\\' :: name))) := by
  have unknown : Symbol.ofName? (String.ofList name) = none := by
    simp [Symbol.ofName?, Symbol.reserved, notVec, noOperator]
  obtain ⟨s, accepts⟩ := completes
  obtain ⟨t, taken⟩ := accepts.front plain
  obtain ⟨z, source, stops⟩ := source_word plain word ends goal
  obtain ⟨ps, pieces⟩ := scanFrom_unknown word unknown stops u.length
  refine ⟨⟨.unknownSymbol (String.ofList ('\\' :: name)), u.length, symbolTerminals⟩, ?_, rfl, rfl, rfl⟩
  rw [refuses_iff, source]
  apply readStatements_of_error
  apply readClauses_of_error
  rw [scan_append_cons parts_backslash (by decide), pieces, State.takePieces_append, taken]
  rfl

/-- Behind a number, where no control word could stand. -/
theorem unknown_symbol_is_committed_behind_a_number :
    ∃ r, Refuses .sheet ['1', '\\', 'f', 'o', 'o', '(', '\n', 'E', 'O', 'F'] r ∧
      (r.report ['1', '\\', 'f', 'o', 'o', '(', '\n', 'E', 'O', 'F']).message =
        "unknown symbol '" ++ String.ofList ['\\', 'f', 'o', 'o'] ++ "'" ∧
      (r.report ['1', '\\', 'f', 'o', 'o', '(', '\n', 'E', 'O', 'F']).position = some ((1 : Nat) : Int) ∧
      (r.report ['1', '\\', 'f', 'o', 'o', '(', '\n', 'E', 'O', 'F']).found =
        some (quoted (String.ofList ['\\', 'f', 'o', 'o'])) :=
  have word : IsWord ['f', 'o', 'o'] :=
    ⟨⟨'f', ['o', 'o'], rfl, rfl⟩, List.all_eq_true.mp rfl⟩
  have ends : ∀ c ∈ ['(', '\n', 'E', 'O', 'F'].head?, isWordChar c = false := by
    rintro c ⟨⟩
    rfl
  unknown_symbol_is_committed .sheet ['1'] ['f', 'o', 'o'] ['(', '\n', 'E', 'O', 'F']
    ⟨[], _, rfl⟩ (by decide) word (by decide) (by decide) ends

end Formulary
