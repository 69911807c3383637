import Formulary.Proofs.Scanning

/-! Texts put together and taken apart. A text keeps its lexemes when another follows it, unless the last
of them would go on into it; and a scan passes through every place that no lexeme reaches over. -/
namespace Formulary

variable {text u w z : List Char} {ls ks : List Lexeme} {b b' : Bool}

/-- A character that goes on with no lexeme. -/
def Parts (c : Char) : Prop :=
  isDigit c = false ∧ isWordChar c = false ∧ c ≠ '.' ∧ c ≠ '('

theorem Parts.endsBefore (parts : Parts c) {l : Lexeme} (notCallee : ∀ f, l ≠ .callee f)
    (z : List Char) : l.EndsBefore (c :: z) := by
  obtain ⟨notDigit, notWord, notPoint, notParen⟩ := parts
  cases l with
  | number =>
    refine ⟨?_, ?_⟩
    · simpa using notDigit
    · intro _ d ds same
      exact absurd (List.cons.inj same).1 notPoint
  | callee f => exact absurd rfl (notCallee f)
  | symbol => simpa [Lexeme.EndsBefore] using notWord
  | scalar => simpa [Lexeme.EndsBefore] using notParen
  | _ => exact trivial

theorem parts_brace : Parts '}' := by unfold Parts; decide

theorem parts_backslash : Parts '\\' := by unfold Parts; decide

theorem parts_newline : Parts '\n' := by unfold Parts; decide

theorem parts_of_isBlank (blank : isBlank c = true) : Parts c := by
  rcases (isBlank_iff c).mp blank with rfl | rfl | rfl <;> unfold Parts <;> decide

namespace Lexeme

theorem text_head_ne_point {l : Lexeme} (spelt : l.Spelt) : l.text.head? ≠ some '.' := by
  have letter : isLetter '.' = false := by decide
  cases l with
  | number whole fraction =>
    obtain ⟨nonempty, digits⟩ := spelt
    obtain ⟨d, ds, rfl⟩ := List.exists_cons_of_ne_nil nonempty
    have digit := digits d (by simp)
    have notPoint : d ≠ '.' := by
      rintro rfl
      cases isDigit_point.symm.trans digit
    cases fraction <;> simpa [text] using notPoint
  | scalar c | callee c =>
    intro same
    obtain rfl : c = '.' := Option.some.inj same
    cases letter.symm.trans spelt
  | sign s => cases s <;> decide
  | symbol s =>
    intro same
    cases same
  | index | endMark | equals | newline | leftParen | rightParen | leftBrace | rightBrace | comma =>
    decide

theorem isBlank_of_mem_text {l : Lexeme} (spelt : l.Spelt) {c : Char} (member : c ∈ l.text) :
    isBlank c = false := by
  cases l with
  | number whole fraction =>
    have digits : ∀ d ∈ whole ++ fraction, isBlank d = false := fun d found =>
      isBlank_of_isDigit (spelt.2 d found)
    cases fraction with
    | nil => exact digits c (by simpa [text] using member)
    | cons e es =>
      rcases List.mem_append.mp member with found | found
      · exact digits c (by simp [found])
      rcases List.mem_cons.mp found with rfl | found
      · decide
      · exact digits c (List.mem_append_right _ found)
  | scalar d | callee d =>
    obtain rfl := List.mem_singleton.mp member
    exact isBlank_of_isLetter spelt
  | symbol s =>
    rcases List.mem_cons.mp member with rfl | found
    · decide
    · have word := s.name_chars.2 c found
      cases blank : isBlank c with
      | false => rfl
      | true =>
        have none : isWordChar ' ' = false ∧ isWordChar '\t' = false ∧ isWordChar '\r' = false := by
          decide
        rcases (isBlank_iff c).mp blank with rfl | rfl | rfl <;> simp_all
  | sign s =>
    obtain rfl := List.mem_singleton.mp member
    cases s <;> decide
  | index | endMark | equals | newline | leftParen | rightParen | leftBrace | rightBrace | comma =>
    have none := (List.any_eq_false (p := isBlank)).mp rfl c member
    exact Bool.eq_false_iff.mpr none

theorem leftParen_of_mem {l : Lexeme} (spelt : l.Spelt) (member : '(' ∈ l.text) :
    l = .leftParen := by
  have none : isDigit '(' = false ∧ isLetter '(' = false ∧ isWordChar '(' = false := by decide
  cases l with
  | leftParen => rfl
  | number whole fraction =>
    have found : '(' ∈ whole ++ fraction := by
      cases fraction <;> simpa [text] using member
    cases none.1.symm.trans (spelt.2 _ found)
  | scalar c | callee c =>
    obtain rfl : '(' = c := List.mem_singleton.mp member
    cases none.2.1.symm.trans spelt
  | symbol s =>
    have found : '(' ∈ s.name.toList := by simpa [text] using member
    cases none.2.2.symm.trans (s.name_chars.2 _ found)
  | sign s => cases s <;> cases List.mem_singleton.mp member
  | index | endMark | equals | newline | rightParen | leftBrace | rightBrace | comma =>
    exact absurd member (by decide)

/-- What ends before a text ends before more of it. -/
theorem EndsBefore.append {l : Lexeme} {c : Char} {cs : List Char} (ends : l.EndsBefore (c :: cs))
    (notPoint : c ≠ '.') (z : List Char) : l.EndsBefore (c :: (cs ++ z)) := by
  cases l with
  | number whole fraction =>
    refine ⟨ends.1, fun _ d ds same => ?_⟩
    exact absurd (List.cons.inj same).1 notPoint
  | _ => exact ends

/-- Only a callee needs what stands behind it. -/
theorem EndsBefore.of_append {l : Lexeme} {x : List Char} (ends : l.EndsBefore (x ++ w))
    (notCallee : x = [] → ∀ f, l ≠ .callee f) : l.EndsBefore x := by
  cases x with
  | nil =>
    cases l with
    | number => exact ⟨nofun, nofun⟩
    | callee f => exact absurd rfl (notCallee rfl f)
    | scalar | symbol => exact nofun
    | _ => exact trivial
  | cons c cs =>
    cases l with
    | number whole fraction =>
      refine ⟨ends.1, fun whole d ds same => ?_⟩
      exact ends.2 whole d (ds ++ w) (by rw [same]; rfl)
    | _ => exact ends

end Lexeme

namespace Scans

theorem nil_of_nil (read : Scans b [] ls b' w) : ls = [] := by
  cases read with
  | done => rfl
  | lexeme spelt _ _ eq _ =>
    obtain ⟨c, cs, text, -⟩ := text_ne_nil spelt
    rw [text] at eq
    cases eq

theorem starts (read : Scans b (c :: text) ls b' []) : c ≠ '.' := by
  cases read with
  | blank blank _ =>
    rintro rfl
    cases blank
  | lexeme spelt _ _ eq _ =>
    obtain ⟨d, ds, start, -⟩ := text_ne_nil spelt
    have first := Lexeme.text_head_ne_point spelt
    rw [start] at eq first
    obtain ⟨rfl, -⟩ := List.cons.inj eq
    exact fun same => first (congrArg some same)

/-- More text behind the last lexeme. -/
theorem extend (read : Scans b text ls b' []) (ends : ∀ l ∈ ls.getLast?, l.EndsBefore z) :
    Scans b (text ++ z) ls b' z := by
  generalize complete : ([] : List Char) = rest at read
  induction read with
  | done =>
    subst complete
    exact .done
  | blank blank _ ih => exact .blank blank (ih ends complete)
  | @lexeme l b text after ls b' rest spelt before index eq read ih =>
    subst complete
    have further : ∀ k ∈ ls.getLast?, k.EndsBefore z := by
      cases ls with
      | nil => exact nofun
      | cons k ks => simpa using ends
    have ends' : l.EndsBefore (after ++ z) := by
      cases after with
      | nil =>
        obtain rfl := read.nil_of_nil
        exact ends l rfl
      | cons c cs => exact before.append read.starts z
    exact .lexeme spelt ends' index (by simp [eq]) (ih further rfl)

/-- Less text behind the last lexeme. A letter is no callee any more without its parenthesis. -/
theorem stop (read : Scans b (u ++ w) ls b' w) : ∃ ks, Scans b u ks b' [] ∧
    (ks = ls ∨ w.head? = some '(' ∧ ∃ front f, ls = front ++ [.callee f] ∧
      ks = front ++ [.scalar f]) := by
  generalize whole : u ++ w = text at read
  induction read generalizing u with
  | done =>
    obtain rfl : u = [] := by simpa using whole
    exact ⟨[], .done, .inl rfl⟩
  | @blank c cs ls b' rest b blank read ih =>
    obtain ⟨front, rfl⟩ := read.suffix
    obtain rfl : u = c :: front := List.append_cancel_right (whole.trans (List.cons_append ..).symm)
    obtain ⟨ks, alone, kept⟩ := ih rfl
    exact ⟨ks, .blank blank alone, kept⟩
  | @lexeme l b text after ls b' rest spelt ends index eq read ih =>
    obtain ⟨front, rfl⟩ := read.suffix
    have same : u ++ rest = l.text ++ front ++ rest := by rw [whole, eq, List.append_assoc]
    obtain rfl := List.append_cancel_right same
    obtain ⟨ks, alone, kept⟩ := ih rfl
    by_cases called : front = [] ∧ ∃ f, l = .callee f
    · obtain ⟨rfl, f, rfl⟩ := called
      obtain rfl := alone.nil_of_nil
      obtain rfl : ls = [] := by
        rcases kept with same | ⟨-, us, g, -, same⟩
        · exact same.symm
        · simp at same
      have ends' : (Lexeme.scalar f).EndsBefore [] := by simp [Lexeme.EndsBefore]
      exact ⟨[.scalar f], .lexeme spelt ends' nofun rfl alone, .inr ⟨ends, [], f, rfl, rfl⟩⟩
    · have notCallee : front = [] → ∀ f, l ≠ .callee f := fun none f same => called ⟨none, f, same⟩
      refine ⟨l :: ks, .lexeme spelt (ends.of_append notCallee) index rfl alone, ?_⟩
      rcases kept with rfl | ⟨next, us, f, rfl, rfl⟩
      · exact .inl rfl
      · exact .inr ⟨next, l :: us, f, rfl, rfl⟩

theorem alone (read : Scans b (u ++ w) ls b' w) (notCalled : w.head? ≠ some '(') :
    Scans b u ls b' [] := by
  obtain ⟨ks, alone, rfl | ⟨called, -⟩⟩ := read.stop
  · exact alone
  · exact absurd called notCalled

/-- A place in a text is passed by the scan, or a lexeme reaches over it. -/
theorem boundary (read : Scans b (u ++ w) ls b' []) :
    (∃ ks ms b₁, ls = ks ++ ms ∧ Scans b (u ++ w) ks b₁ w ∧ Scans b₁ w ms b' []) ∨
    (∃ ks l ms x y after, ls = ks ++ l :: ms ∧ x ≠ [] ∧ y ≠ [] ∧ l.Spelt ∧ l.text = x ++ y ∧
      w = y ++ after ∧ l.EndsBefore after ∧ Scans false after ms b' []) := by
  generalize whole : u ++ w = text at read
  generalize complete : ([] : List Char) = rest at read
  induction read generalizing u with
  | done =>
    subst complete
    obtain ⟨rfl, rfl⟩ := List.append_eq_nil_iff.mp whole
    exact .inl ⟨[], [], _, rfl, .done, .done⟩
  | @blank c cs ls b' rest b blank read ih =>
    subst complete
    cases u with
    | nil =>
      obtain rfl : w = c :: cs := whole
      exact .inl ⟨[], ls, b, rfl, .done, .blank blank read⟩
    | cons d u =>
      obtain ⟨rfl, same⟩ := List.cons.inj whole
      rcases ih same rfl with ⟨ks, ms, b₁, rfl, first, last⟩ | across
      · exact .inl ⟨ks, ms, b₁, rfl, .blank blank first, last⟩
      · exact .inr across
  | @lexeme l b text after ls b' rest spelt ends index eq read ih =>
    subst complete
    cases u with
    | nil =>
      obtain rfl : w = text := whole
      exact .inl ⟨[], l :: ls, b, rfl, .done, .lexeme spelt ends index eq read⟩
    | cons d u =>
      rcases List.append_eq_append_iff.mp (whole.trans eq) with ⟨x, text_eq, w_eq⟩ | ⟨x, u_eq, after_eq⟩
      · cases x with
        | nil =>
          obtain rfl : w = after := w_eq
          exact .inl ⟨[l], ls, false, rfl, .lexeme spelt ends index eq .done, read⟩
        | cons y ys =>
          exact .inr ⟨[], l, ls, d :: u, y :: ys, after, rfl, nofun, nofun, spelt, text_eq, w_eq, ends,
            read⟩
      · rcases ih after_eq.symm rfl with ⟨ks, ms, b₁, rfl, first, last⟩ | across
        · exact .inl ⟨l :: ks, ms, b₁, rfl, .lexeme spelt ends index eq first, last⟩
        · obtain ⟨ks, k, ms, x, y, after, rfl, across⟩ := across
          exact .inr ⟨l :: ks, k, ms, x, y, after, rfl, across⟩

/-- The place of a lexeme in a text, with what is scanned before it and behind it. -/
theorem split (read : Scans b text (ls ++ l :: ks) b' w) : ∃ front back b₁,
    text = front ++ (l.text ++ back) ∧ Scans b text ls b₁ (l.text ++ back) ∧
      Scans b₁ (l.text ++ back) [l] false back ∧ Scans false back ks b' w := by
  generalize all : ls ++ l :: ks = whole at read
  induction read generalizing ls with
  | done => simp at all
  | @blank c cs _ _ _ _ blank _ ih =>
    obtain ⟨front, back, b₁, rfl, before, here, behind⟩ := ih all
    exact ⟨c :: front, back, b₁, rfl, .blank blank before, here, behind⟩
  | @lexeme _ _ _ after _ _ _ spelt ends index eq read ih =>
    cases ls with
    | nil =>
      obtain ⟨rfl, rfl⟩ := List.cons.inj all
      subst eq
      exact ⟨[], after, _, rfl, .done, .lexeme spelt ends index rfl .done, read⟩
    | cons k ls =>
      obtain ⟨rfl, tail⟩ := List.cons.inj all
      obtain ⟨front, back, b₁, rfl, before, here, behind⟩ := ih tail
      refine ⟨k.text ++ front, back, b₁, ?_, .lexeme spelt ends index eq before, here, behind⟩
      rw [eq, List.append_assoc]

/-- What is scanned first is part of the whole scan. -/
theorem rest (first : Scans b text ls b₁ w) (all : Scans b text ks b' []) :
    ∃ ms, ks = ls ++ ms ∧ ∃ b₂, Scans b₁ w ms b₂ [] := by
  obtain ⟨ps, pieces, eq⟩ := first.scanFrom_eq 0
  obtain ⟨qs, allPieces, allEq⟩ := all.scanFrom_eq 0
  have same : ks.map .lexeme = ls.map .lexeme ++
      (scanFrom 0 (0 + (text.length - w.length)) b₁ w).map (·.piece) := by
    rw [← pieces, ← List.map_append, ← eq, allEq, List.map_append, allPieces]
    simp [scanFrom]
  obtain ⟨ls', ms, rfl, front, back⟩ := List.map_eq_append_iff.mp same
  obtain rfl : ls' = ls := (List.map_inj_right fun _ _ => Piece.lexeme.inj).mp front
  exact ⟨ms, rfl, scans_of_scanFrom w b₁ _ back.symm⟩

/-- A blank before anything but an index mark makes no difference. -/
theorem reflag (read : Scans b text (l :: ls) b' w) (notIndex : l ≠ .index) (b₁ : Bool) :
    Scans b₁ text (l :: ls) b' w := by
  cases read with
  | blank blank read => exact .blank blank read
  | lexeme spelt ends _ eq read => exact .lexeme spelt ends (absurd · notIndex) eq read

theorem text_subset (read : Scans b text ls b' w) {l : Lexeme} (member : l ∈ ls) :
    ∀ c ∈ l.text, c ∈ text := by
  induction read with
  | done => cases member
  | blank _ _ ih => exact fun c found => .tail _ (ih member c found)
  | lexeme _ _ _ eq _ ih =>
    subst eq
    intro c found
    rcases List.mem_cons.mp member with rfl | member
    · exact List.mem_append_left _ found
    · exact List.mem_append_right _ (ih member c found)

theorem mem_text (read : Scans b text ls b' []) {c : Char} (member : c ∈ text) :
    isBlank c = true ∨ ∃ l ∈ ls, c ∈ l.text := by
  generalize complete : ([] : List Char) = rest at read
  induction read with
  | done =>
    subst complete
    cases member
  | blank blank _ ih =>
    rcases List.mem_cons.mp member with rfl | member
    · exact .inl blank
    · exact ih member complete
  | lexeme _ _ _ eq _ ih =>
    subst eq
    rcases List.mem_append.mp member with found | found
    · exact .inr ⟨_, .head _, found⟩
    · rcases ih found complete with blank | ⟨l, later, inside⟩
      · exact .inl blank
      · exact .inr ⟨l, .tail _ later, inside⟩

end Scans

theorem Lexes.last_not_callee (lexes : Lexes text ls) : ∀ l ∈ ls.getLast?, ∀ f, l ≠ .callee f := by
  rintro l last f rfl
  obtain ⟨front, rfl⟩ := List.getLast?_eq_some_iff.mp last
  obtain ⟨b, scans⟩ := lexes
  obtain ⟨b₁, middle, -, callee⟩ := scans.cut
  cases callee.callee_next

/-! The pieces before a character that parts the text. -/

theorem takeWhile_append_cons {p : Char → Bool} (stops : p c = false) (u rest : List Char) :
    (u ++ c :: rest).takeWhile p = u.takeWhile p := by
  induction u with
  | nil => simp [stops]
  | cons d u ih =>
    rw [List.cons_append, List.takeWhile_cons, List.takeWhile_cons, ih]

theorem dropWhile_append_cons {p : Char → Bool} (stops : p c = false) (u rest : List Char) :
    (u ++ c :: rest).dropWhile p = u.dropWhile p ++ c :: rest := by
  induction u with
  | nil => simp [stops]
  | cons d u ih =>
    rw [List.cons_append, List.dropWhile_cons, List.dropWhile_cons, ih]
    split <;> rfl

theorem isWordChar_of_isLetter (letter : isLetter c = true) : isWordChar c = true := by
  have lower : c.isLower = true := letter
  change ((c.isUpper || c.isLower) || c.isDigit || decide (c = '_')) = true
  rw [lower, Bool.or_true, Bool.true_or, Bool.true_or]

theorem Parts.isLetter (parts : Parts c) : isLetter c = false := by
  cases letter : Formulary.isLetter c with
  | false => rfl
  | true => cases (isWordChar_of_isLetter letter).symm.trans parts.2.1

theorem fractionOf_append_cons (parts : Parts c) (u rest : List Char) :
    fractionOf (u ++ c :: rest) = fractionOf u := by
  cases u with
  | nil => simp [fractionOf, parts.2.2.1]
  | cons d u =>
    by_cases point : d = '.'
    · subst point
      exact takeWhile_append_cons parts.1 u rest
    · simp [fractionOf, point]

theorem numberAt_append_cons (parts : Parts c) (u rest : List Char) :
    numberAt (u ++ c :: rest) = numberAt u := by
  rw [numberAt, numberAt, takeWhile_append_cons parts.1, dropWhile_append_cons parts.1,
    fractionOf_append_cons parts]

/-- A piece is the same whether the text goes on or ends there. -/
theorem pieceAt_append_cons (parts : Parts c) (notBrace : c ≠ '{') (b : Bool) (d : Char)
    (u rest : List Char) : pieceAt b d (u ++ c :: rest) = pieceAt b d u := by
  have notWord : c ≠ 'O' ∧ c ≠ 'F' := by
    constructor <;> rintro rfl <;> cases parts.2.1
  have number := numberAt_append_cons parts (d :: u) rest
  have paren : ((u ++ c :: rest).head? = some '(') = (u.head? = some '(') := by
    cases u <;> simp [parts.2.2.2]
  have brace : ((u ++ c :: rest).head? = some '{') = (u.head? = some '{') := by
    cases u <;> simp [notBrace]
  have letter : ((u ++ c :: rest).head?.map isLetter).getD false =
      (u.head?.map isLetter).getD false := by
    cases u <;> simp [parts.isLetter]
  have mark : ((u ++ c :: rest).take 2 = ['O', 'F']) = (u.take 2 = ['O', 'F']) := by
    match u with
    | [] | [_] | _ :: _ :: _ => simp [notWord]
  rw [List.cons_append] at number
  simp only [pieceAt, number, paren, brace, letter, mark, takeWhile_append_cons parts.2.1]

theorem scanFrom_append_cons (parts : Parts c) (notBrace : c ≠ '{') (passed offset : Nat) (b : Bool)
    (within : passed ≤ u.length) (rest : List Char) :
    scanFrom passed offset b (u ++ c :: rest) =
      scanFrom passed offset b u ++ scanFrom 0 (offset + u.length) false (c :: rest) := by
  induction u generalizing passed offset b with
  | nil =>
    obtain rfl : passed = 0 := Nat.le_zero.mp within
    have notMark : c ≠ '_' := by
      rintro rfl
      cases parts.2.1
    simp [scanFrom, pieceAt, notMark]
  | cons d u ih =>
    have next : offset + 1 + u.length = offset + (d :: u).length := by
      rw [List.length_cons]
      omega
    have later : ∀ passed b, passed ≤ u.length →
        scanFrom passed (offset + 1) b (u ++ c :: rest) =
          scanFrom passed (offset + 1) b u ++
            scanFrom 0 (offset + (d :: u).length) false (c :: rest) := by
      intro passed b within
      rw [← next]
      exact ih passed (offset + 1) b within
    cases passed with
    | succ passed => exact later passed false (Nat.le_of_succ_le_succ within)
    | zero =>
      rw [List.cons_append, scanFrom, scanFrom, pieceAt_append_cons parts notBrace]
      split
      · exact later 0 true (Nat.zero_le _)
      · have long := List.IsPrefix.length_le <| text_pieceAt_prefix b d u
        rw [List.length_cons] at long
        exact congrArg _ (later _ false (by omega))

end Formulary
