import Formulary.Lexeme

/-! Scanning against lexical rules that mention no scanner: a text is the texts of its lexemes with
blanks between them, no lexeme could go on, and an index mark follows no blank. -/
namespace Formulary

namespace Lexeme

/-- Digits and letters stand where they should. Signs and symbols have one text each. -/
def Spelt : Lexeme → Prop
  | .number whole fraction => whole ≠ [] ∧ ∀ c ∈ whole ++ fraction, isDigit c = true
  | .scalar c | .callee c => isLetter c = true
  | _ => True

/-- The lexeme ends where the rest begins: numbers and words are as long as they can be, and a letter
is a callee exactly before a parenthesis. -/
def EndsBefore (rest : List Char) : Lexeme → Prop
  | .number _ fraction =>
    (∀ c ∈ rest.head?, isDigit c = false) ∧
      (fraction = [] → ∀ c cs, rest = '.' :: c :: cs → isDigit c = false)
  | .scalar _ => rest.head? ≠ some '('
  | .callee _ => rest.head? = some '('
  | .symbol _ => ∀ c ∈ rest.head?, isWordChar c = false
  | _ => True

end Lexeme

/-- A text is scanned from its start, where a blank stands before it or not, and leaves a rest, before
which a blank stands or not. Lexemes are checked with the actual rest behind them. -/
inductive Scans : Bool → List Char → List Lexeme → Bool → List Char → Prop where
  | done : Scans b rest [] b rest
  | blank : isBlank c = true → Scans true cs ls b' rest → Scans b (c :: cs) ls b' rest
  | lexeme : l.Spelt → l.EndsBefore after → (l = .index → b = false) →
      text = l.text ++ after → Scans false after ls b' rest → Scans b text (l :: ls) b' rest

/-- The lexemes of a whole text. -/
def Lexes (text : List Char) (ls : List Lexeme) : Prop := ∃ b, Scans false text ls b []

/-! Character classes. -/

theorem isDigit_iff (c : Char) :
    isDigit c = true ↔ ∃ first ∈ digitZeros, first ≤ c.toNat ∧ c.toNat < first + 10 := by
  simp [isDigit, digitValue?, List.find?_isSome]

/-- Below the other scripts only the ten usual characters are digits. -/
theorem isDigit_ascii {c : Char} (small : c.toNat < 128) (digit : isDigit c = true) :
    48 ≤ c.toNat ∧ c.toNat < 58 := by
  obtain ⟨first, member, low, high⟩ := (isDigit_iff c).mp digit
  have zeros : ∀ z ∈ digitZeros, z = 48 ∨ 128 ≤ z := by decide
  rcases zeros first member with rfl | large
  · exact ⟨low, high⟩
  · omega

theorem isLetter_iff (c : Char) : isLetter c = true ↔ 97 ≤ c.toNat ∧ c.toNat ≤ 122 := by
  simp only [isLetter, Bool.and_eq_true, decide_eq_true_eq, Char.le_def, UInt32.le_iff_toNat_le]
  rfl

theorem isDigit_of_isLetter {c : Char} (letter : isLetter c = true) : isDigit c = false := by
  have range := (isLetter_iff c).mp letter
  cases digit : isDigit c with
  | false => rfl
  | true =>
    have := isDigit_ascii (by omega) digit
    omega

theorem isBlank_iff (c : Char) : isBlank c = true ↔ c = ' ' ∨ c = '\t' ∨ c = '\r' := by
  simp [isBlank, or_assoc]

theorem isBlank_of_isDigit {c : Char} (digit : isDigit c = true) : isBlank c = false := by
  cases blank : isBlank c with
  | false => rfl
  | true =>
    have none : isDigit ' ' = false ∧ isDigit '\t' = false ∧ isDigit '\r' = false := by decide
    rcases (isBlank_iff c).mp blank with rfl | rfl | rfl <;> simp_all

theorem isBlank_of_isLetter {c : Char} (letter : isLetter c = true) : isBlank c = false := by
  cases blank : isBlank c with
  | false => rfl
  | true =>
    have none : isLetter ' ' = false ∧ isLetter '\t' = false ∧ isLetter '\r' = false := by decide
    rcases (isBlank_iff c).mp blank with rfl | rfl | rfl <;> simp_all

theorem Symbol.name_chars (s : Symbol) :
    (s.name.toList.head?.map isLetter).getD false = true ∧
      ∀ c ∈ s.name.toList, isWordChar c = true := by
  have name : (s.name.toList.head?.map isLetter).getD false = true ∧
      s.name.toList.all isWordChar = true := by
    cases s with
    | vec | sum => decide
    | unary s => cases s <;> decide
    | binary s => cases s <;> decide
    | ternary s => cases s <;> decide
  exact ⟨name.1, List.all_eq_true.mp name.2⟩

/-! Single lexemes. -/

theorem takeWhile_stop {p : α → Bool} {rest : List α} (stop : ∀ a ∈ rest.head?, p a = false) :
    rest.takeWhile p = [] := by
  cases rest with
  | nil => rfl
  | cons a rest => simp [stop a rfl]

theorem dropWhile_stop {p : α → Bool} {rest : List α} (stop : ∀ a ∈ rest.head?, p a = false) :
    rest.dropWhile p = rest := by
  cases rest with
  | nil => rfl
  | cons a rest => simp [stop a rfl]

theorem takeWhile_append_stop {p : α → Bool} {body rest : List α} (inside : ∀ a ∈ body, p a = true)
    (stop : ∀ a ∈ rest.head?, p a = false) : (body ++ rest).takeWhile p = body := by
  rw [List.takeWhile_append_of_pos inside, takeWhile_stop stop, List.append_nil]

theorem dropWhile_append_stop {p : α → Bool} {body rest : List α} (inside : ∀ a ∈ body, p a = true)
    (stop : ∀ a ∈ rest.head?, p a = false) : (body ++ rest).dropWhile p = rest := by
  rw [List.dropWhile_append_of_pos inside, dropWhile_stop stop]

theorem isDigit_point : isDigit '.' = false := by decide

theorem fractionOf_eq_nil {rest : List Char}
    (stop : ∀ c cs, rest = '.' :: c :: cs → isDigit c = false) : fractionOf rest = [] := by
  unfold fractionOf
  split
  · next cs =>
    apply takeWhile_stop
    intro c first
    cases cs with
    | nil => simp at first
    | cons d ds =>
      obtain rfl : d = c := by simpa using first
      exact stop d ds rfl
  · rfl

theorem numberAt_text {whole fraction rest : List Char}
    (spelt : (Lexeme.number whole fraction).Spelt)
    (ends : (Lexeme.number whole fraction).EndsBefore rest) :
    numberAt ((Lexeme.number whole fraction).text ++ rest) = .number whole fraction := by
  obtain ⟨-, digits⟩ := spelt
  obtain ⟨stop, noFraction⟩ := ends
  have wholeDigits : ∀ c ∈ whole, isDigit c = true := fun c hc =>
    digits c (List.mem_append_left _ hc)
  have fractionDigits : ∀ c ∈ fraction, isDigit c = true := fun c hc =>
    digits c (List.mem_append_right _ hc)
  cases fraction with
  | nil =>
    simp only [numberAt, Lexeme.text, takeWhile_append_stop wholeDigits stop,
      dropWhile_append_stop wholeDigits stop, fractionOf_eq_nil (noFraction rfl)]
  | cons d ds =>
    have point : ∀ c ∈ ('.' :: (d :: ds) ++ rest).head?, isDigit c = false := by
      simp [isDigit_point]
    have text : (Lexeme.number whole (d :: ds)).text ++ rest =
        whole ++ ('.' :: (d :: ds) ++ rest) := by simp [Lexeme.text]
    rw [text]
    simp only [numberAt, takeWhile_append_stop wholeDigits point, dropWhile_append_stop wholeDigits point]
    rw [List.cons_append, fractionOf, takeWhile_append_stop fractionDigits stop]

theorem isLetter_backslash : isLetter '\\' = false := by decide

theorem isDigit_backslash : isDigit '\\' = false := by decide

theorem dropWhile_head {p : α → Bool} {as : List α} : ∀ a ∈ (as.dropWhile p).head?, p a = false := by
  intro a first
  have := List.head?_dropWhile_not p as
  simpa [Option.mem_def.mp first] using this

theorem mem_takeWhile {p : α → Bool} {as : List α} {a : α} (member : a ∈ as.takeWhile p) :
    p a = true :=
  List.all_eq_true.mp List.all_takeWhile a member

theorem numberAt_spec {c : Char} (digit : isDigit c = true) (cs : List Char) :
    ∃ whole fraction rest, numberAt (c :: cs) = .number whole fraction ∧
      (Lexeme.number whole fraction).Spelt ∧ (Lexeme.number whole fraction).EndsBefore rest ∧
      c :: cs = (Lexeme.number whole fraction).text ++ rest := by
  have wholeDigits : ∀ d ∈ (c :: cs).takeWhile isDigit, isDigit d = true := fun d => mem_takeWhile
  have nonempty : (c :: cs).takeWhile isDigit ≠ [] := by simp [digit]
  have split : c :: cs = (c :: cs).takeWhile isDigit ++ (c :: cs).dropWhile isDigit :=
    List.takeWhile_append_dropWhile.symm
  have stop : ∀ d ∈ ((c :: cs).dropWhile isDigit).head?, isDigit d = false := dropWhile_head
  cases fraction : fractionOf ((c :: cs).dropWhile isDigit) with
  | nil =>
    refine ⟨_, [], (c :: cs).dropWhile isDigit, by rw [numberAt, fraction], ⟨nonempty, ?_⟩,
      ⟨stop, ?_⟩, split⟩
    · simpa using wholeDigits
    · intro _ d ds rest
      cases second : isDigit d with
      | false => rfl
      | true => simp [rest, fractionOf, second] at fraction
  | cons d ds =>
    unfold fractionOf at fraction
    split at fraction
    · next after rest =>
      refine ⟨_, d :: ds, after.dropWhile isDigit,
        by rw [numberAt, rest, fractionOf, fraction], ⟨nonempty, ?_⟩,
        ⟨dropWhile_head, (absurd · (List.cons_ne_nil d ds))⟩, ?_⟩
      · intro e member
        rcases List.mem_append.mp member with member | member
        · exact wholeDigits e member
        · exact mem_takeWhile (fraction ▸ member)
      · conv => lhs; rw [split, rest]
        simp [Lexeme.text, ← fraction]
    · cases fraction

theorem wordPiece_eq_lexeme {word : List Char} (h : wordPiece word = .lexeme l) :
    ∃ s, l = .symbol s ∧ s.name.toList = word := by
  unfold wordPiece at h
  split at h
  · next s found =>
    refine ⟨s, (Piece.lexeme.inj h).symm, ?_⟩
    rw [Symbol.name_of_ofName? found, String.toList_ofList]
  · cases h

theorem signLexeme?_spec {c : Char} {l : Lexeme} (found : signLexeme? c = some l)
    (rest : List Char) : l.Spelt ∧ l ≠ .index ∧ l.EndsBefore rest := by
  unfold signLexeme? at found
  split at found <;> cases found <;> exact ⟨trivial, nofun, trivial⟩

/-- The scanner finds every lexeme that is spelt and ends as it should. -/
theorem pieceAt_text {l : Lexeme} (spelt : l.Spelt) (ends : l.EndsBefore rest)
    (index : l = .index → b = false) (start : l.text ++ rest = c :: cs) :
    pieceAt b c cs = .lexeme l := by
  cases l with
  | number whole fraction =>
    have digit : isDigit c = true := by
      obtain ⟨nonempty, digits⟩ := spelt
      obtain ⟨d, ds, rfl⟩ := List.exists_cons_of_ne_nil nonempty
      have same : d = c := by
        cases fraction <;> simp_all [Lexeme.text]
      exact same ▸ digits d (by simp)
    rw [pieceAt, if_pos digit, ← start, numberAt_text spelt ends]
  | scalar a =>
    obtain ⟨rfl, rfl⟩ : a = c ∧ rest = cs := List.cons.inj start
    have letter : isLetter a = true := spelt
    have notCall : rest.head? ≠ some '(' := ends
    simp [pieceAt, isDigit_of_isLetter letter, letter, notCall]
  | callee a =>
    obtain ⟨rfl, rfl⟩ : a = c ∧ rest = cs := List.cons.inj start
    have letter : isLetter a = true := spelt
    have call : rest.head? = some '(' := ends
    simp [pieceAt, isDigit_of_isLetter letter, letter, call]
  | symbol s =>
    obtain ⟨rfl, rfl⟩ : '\\' = c ∧ s.name.toList ++ rest = cs := List.cons.inj start
    obtain ⟨letter, word⟩ := s.name_chars
    have begins : ((s.name.toList ++ rest).head?.map isLetter).getD false = true := by
      cases name : s.name.toList with
      | nil => simp [name] at letter
      | cons d ds => simpa [name] using letter
    have whole : (s.name.toList ++ rest).takeWhile isWordChar = s.name.toList :=
      takeWhile_append_stop word ends
    rw [pieceAt, isDigit_backslash, isLetter_backslash, if_neg Bool.false_ne_true,
      if_neg Bool.false_ne_true, if_pos (by rw [begins]; rfl), whole]
    simp [wordPiece, Symbol.ofName?_name]
  | index =>
    obtain ⟨rfl, rfl⟩ := List.cons.inj start
    rw [index rfl]
    rfl
  | sign s =>
    obtain ⟨rfl, rfl⟩ := List.cons.inj start
    cases s <;> rfl
  | equals | newline | endMark | leftParen | rightParen | leftBrace | rightBrace | comma =>
    obtain ⟨rfl, rfl⟩ := List.cons.inj start
    rfl

/-- What the scanner finds is spelt and ends as it should. -/
theorem lexeme_of_pieceAt {l : Lexeme} (found : pieceAt b c cs = .lexeme l) :
    l.Spelt ∧ (l = .index → b = false) ∧ ∃ rest, l.EndsBefore rest ∧ c :: cs = l.text ++ rest := by
  unfold pieceAt at found
  split at found
  · next digit =>
    obtain ⟨whole, fraction, rest, number, spelt, ends, text⟩ := numberAt_spec digit cs
    cases (Piece.lexeme.inj found).symm.trans number
    exact ⟨spelt, by rintro ⟨⟩, rest, ends, text⟩
  split at found
  · next letter =>
    split at found
    · next call =>
      cases found
      exact ⟨letter, by rintro ⟨⟩, cs, call, rfl⟩
    · next notCall =>
      cases found
      exact ⟨letter, by rintro ⟨⟩, cs, notCall, rfl⟩
  split at found
  · next word =>
    simp only [Bool.and_eq_true, decide_eq_true_eq] at word
    obtain ⟨s, rfl, name⟩ := wordPiece_eq_lexeme found
    refine ⟨trivial, by rintro ⟨⟩, cs.dropWhile isWordChar, dropWhile_head, ?_⟩
    rw [word.1, Lexeme.text, name, List.cons_append, List.takeWhile_append_dropWhile]
  split at found
  · next index =>
    simp only [Bool.and_eq_true, decide_eq_true_eq, Bool.not_eq_true'] at index
    obtain ⟨⟨rfl, afterBlank⟩, next⟩ := index
    cases found
    cases cs with
    | nil => simp at next
    | cons d ds =>
      obtain rfl : d = '{' := by simpa using next
      exact ⟨trivial, fun _ => afterBlank, ds, trivial, rfl⟩
  split at found
  · next endMark =>
    simp only [Bool.and_eq_true, decide_eq_true_eq] at endMark
    obtain ⟨rfl, next⟩ := endMark
    cases found
    refine ⟨trivial, by rintro ⟨⟩, cs.drop 2, trivial, ?_⟩
    conv => lhs; rw [← List.take_append_drop 2 cs, next]
    rfl
  split at found
  · next sign =>
    cases found
    obtain ⟨spelt, notIndex, ends⟩ := signLexeme?_spec sign cs
    exact ⟨spelt, fun same => absurd same notIndex, cs, ends, by rw [text_of_signLexeme? sign]; rfl⟩
  · cases found

theorem text_ne_nil {l : Lexeme} (spelt : l.Spelt) :
    ∃ c cs, l.text = c :: cs ∧ isBlank c = false := by
  cases l with
  | number whole fraction =>
    obtain ⟨nonempty, digits⟩ := spelt
    obtain ⟨d, ds, rfl⟩ := List.exists_cons_of_ne_nil nonempty
    have digit := digits d (by simp)
    cases fraction with
    | nil => exact ⟨d, ds, rfl, isBlank_of_isDigit digit⟩
    | cons e es => exact ⟨d, ds ++ '.' :: e :: es, rfl, isBlank_of_isDigit digit⟩
  | scalar a | callee a => exact ⟨a, [], rfl, isBlank_of_isLetter spelt⟩
  | symbol s => exact ⟨'\\', s.name.toList, rfl, by decide⟩
  | index => exact ⟨'_', ['{'], rfl, by decide⟩
  | endMark => exact ⟨'E', ['O', 'F'], rfl, by decide⟩
  | sign s => cases s <;> exact ⟨_, [], rfl, by decide⟩
  | equals | newline | leftParen | rightParen | leftBrace | rightBrace | comma =>
    exact ⟨_, [], rfl, by decide⟩

/-! The scanner, piece by piece. -/

theorem scanFrom_passed (cs rest : List Char) (offset : Nat) :
    scanFrom cs.length offset false (cs ++ rest) =
      scanFrom 0 (offset + cs.length) false rest := by
  induction cs generalizing offset with
  | nil => rfl
  | cons c cs ih =>
    have step : scanFrom (c :: cs).length offset false (c :: cs ++ rest) =
        scanFrom cs.length (offset + 1) false (cs ++ rest) := rfl
    rw [step, ih, List.length_cons, Nat.add_right_comm, Nat.add_assoc]

theorem scanFrom_blank {c : Char} (blank : isBlank c = true) (b : Bool) (offset : Nat)
    (cs : List Char) : scanFrom 0 offset b (c :: cs) = scanFrom 0 (offset + 1) true cs := by
  rw [scanFrom, if_pos blank]

theorem scanFrom_text {l : Lexeme} (spelt : l.Spelt) (ends : l.EndsBefore rest)
    (index : l = .index → b = false) (offset : Nat) :
    scanFrom 0 offset b (l.text ++ rest) =
      ⟨.lexeme l, offset⟩ :: scanFrom 0 (offset + l.text.length) false rest := by
  obtain ⟨c, cs, text, visible⟩ := text_ne_nil spelt
  have found : pieceAt b c (cs ++ rest) = .lexeme l :=
    pieceAt_text spelt ends index (by rw [text, List.cons_append])
  rw [text, List.cons_append, scanFrom, if_neg (by simp [visible]), found]
  have remaining : (Piece.lexeme l).text.length - 1 = cs.length := by
    simp [Piece.text, text]
  dsimp only
  rw [remaining, scanFrom_passed, List.length_cons, Nat.add_right_comm, Nat.add_assoc]

namespace Scans

theorem trans (first : Scans b text ls b' middle) (last : Scans b' middle ks b'' rest) :
    Scans b text (ls ++ ks) b'' rest := by
  induction first with
  | done => exact last
  | blank h _ ih => exact .blank h (ih last)
  | lexeme spelt ends index eq _ ih => exact .lexeme spelt ends index eq (ih last)

/-- The rest of a text has not been touched. -/
theorem suffix (read : Scans b text ls b' rest) : ∃ front, text = front ++ rest := by
  induction read with
  | done => exact ⟨[], rfl⟩
  | @blank c _ _ _ _ _ _ _ ih =>
    obtain ⟨front, rfl⟩ := ih
    exact ⟨c :: front, rfl⟩
  | lexeme _ _ _ eq _ ih =>
    obtain ⟨front, rfl⟩ := ih
    exact ⟨_ ++ front, by rw [eq, List.append_assoc]⟩

/-- Between two of its lexemes a text can be cut. -/
theorem cut (read : Scans b text (ls ++ ks) b' rest) :
    ∃ b₁ middle, Scans b text ls b₁ middle ∧ Scans b₁ middle ks b' rest := by
  generalize all : ls ++ ks = whole at read
  induction read generalizing ls with
  | done =>
    obtain ⟨rfl, rfl⟩ := List.append_eq_nil_iff.mp all
    exact ⟨_, _, .done, .done⟩
  | blank h _ ih =>
    obtain ⟨b₁, middle, first, last⟩ := ih all
    exact ⟨b₁, middle, .blank h first, last⟩
  | lexeme spelt ends index eq read ih =>
    cases ls with
    | nil =>
      subst all
      exact ⟨_, _, .done, .lexeme spelt ends index eq read⟩
    | cons l ls =>
      obtain ⟨rfl, tail⟩ := List.cons.inj all
      obtain ⟨b₁, middle, first, last⟩ := ih tail
      exact ⟨b₁, middle, .lexeme spelt ends index eq first, last⟩

/-- Lexemes that are scanned are the scanner's next pieces. -/
theorem scanFrom_eq (read : Scans b text ls b' rest) (offset : Nat) :
    ∃ ps : List Placed, ps.map (·.piece) = ls.map .lexeme ∧
      scanFrom 0 offset b text =
        ps ++ scanFrom 0 (offset + (text.length - rest.length)) b' rest := by
  induction read generalizing offset with
  | done => exact ⟨[], rfl, by simp⟩
  | @blank c cs _ _ rest _ h read ih =>
    obtain ⟨front, rfl⟩ := read.suffix
    obtain ⟨ps, pieces, eq⟩ := ih (offset + 1)
    refine ⟨ps, pieces, ?_⟩
    rw [scanFrom_blank h, eq]
    congr 2
    simp only [List.length_append, List.length_cons]
    omega
  | @lexeme l after b text ls b' rest spelt ends index eq read ih =>
    obtain ⟨front, rfl⟩ := read.suffix
    obtain ⟨ps, pieces, scanned⟩ := ih (offset + l.text.length)
    refine ⟨⟨.lexeme l, offset⟩ :: ps, by simp [pieces], ?_⟩
    rw [eq, scanFrom_text spelt ends index, scanned, List.cons_append]
    congr 3
    simp only [List.length_append]
    omega

end Scans

theorem scans_of_scanFrom_nil (none : scanFrom 0 offset b text = []) :
    ∃ b', Scans b text [] b' [] := by
  induction text generalizing offset b with
  | nil => exact ⟨b, .done⟩
  | cons c cs ih =>
    cases blank : isBlank c with
    | true =>
      rw [scanFrom_blank blank] at none
      obtain ⟨b', read⟩ := ih none
      exact ⟨b', .blank blank read⟩
    | false => simp [scanFrom, blank] at none

/-- The first piece stands behind blanks. -/
theorem scans_of_scanFrom_cons (first : scanFrom 0 offset b text = p :: ps) :
    ∃ b' c rest, Scans b text [] b' (c :: rest) ∧ isBlank c = false ∧
      p.start + (rest.length + 1) = offset + text.length ∧
        scanFrom 0 p.start b' (c :: rest) = p :: ps := by
  induction text generalizing offset b with
  | nil => cases first
  | cons c cs ih =>
    cases blank : isBlank c with
    | true =>
      rw [scanFrom_blank blank] at first
      obtain ⟨b', d, rest, read, visible, start, pieces⟩ := ih first
      refine ⟨b', d, rest, .blank blank read, visible, ?_, pieces⟩
      rw [List.length_cons]
      omega
    | false =>
      have here : p.start = offset := by
        rw [scanFrom, if_neg (by simp [blank])] at first
        rw [← (List.cons.inj first).1]
      exact ⟨b, c, cs, .done, blank, by rw [here, List.length_cons], here ▸ first⟩

/-- The scanner's first pieces are scanned, if they are lexemes. -/
theorem scans_of_scanFrom_append {before after : List Placed}
    (pieces : scanFrom 0 offset b text = before ++ after)
    (lexemes : before.map (·.piece) = ls.map .lexeme) :
    ∃ b' rest offset', Scans b text ls b' rest ∧ offset' + rest.length = offset + text.length ∧
      scanFrom 0 offset' b' rest = after := by
  induction ls generalizing offset b text before with
  | nil =>
    obtain rfl : before = [] := by simpa using lexemes
    exact ⟨b, text, offset, .done, rfl, pieces⟩
  | cons l ls ih =>
    obtain ⟨p, before, rfl, piece, lexemes⟩ := List.map_eq_cons_iff.mp lexemes
    obtain ⟨b₁, c, cs, blanks, visible, start, found⟩ := scans_of_scanFrom_cons pieces
    have head : pieceAt b₁ c cs = .lexeme l := by
      rw [scanFrom, if_neg (by simp [visible])] at found
      rw [← piece, ← (List.cons.inj found).1]
    obtain ⟨spelt, index, rest, ends, eq⟩ := lexeme_of_pieceAt head
    rw [eq, scanFrom_text spelt ends index] at found
    obtain ⟨b', rest', offset', read, length, last⟩ := ih (List.cons.inj found).2 lexemes
    refine ⟨b', rest', offset', blanks.trans (.lexeme spelt ends index eq read), ?_, last⟩
    have long := congrArg List.length eq
    rw [List.length_cons, List.length_append] at long
    omega

theorem scans_of_scanFrom (text : List Char) (b : Bool) (offset : Nat)
    (all : (scanFrom 0 offset b text).map (·.piece) = ls.map .lexeme) :
    ∃ b', Scans b text ls b' [] := by
  obtain ⟨b₁, rest, offset', read, -, none⟩ :=
    scans_of_scanFrom_append (List.append_nil _).symm all
  obtain ⟨b', blanks⟩ := scans_of_scanFrom_nil none
  exact ⟨b', by simpa using read.trans blanks⟩

/-- Behind a callee the parenthesis is the next lexeme. -/
theorem Scans.callee_next (read : Scans b text (.callee f :: ls) b' []) :
    ls.head? = some .leftParen := by
  generalize same : Lexeme.callee f :: ls = ks at read
  generalize complete : ([] : List Char) = rest at read
  induction read with
  | done => cases same
  | blank _ _ ih => exact ih same complete
  | lexeme _ ends _ _ read _ =>
    subst complete
    obtain ⟨rfl, rfl⟩ := List.cons.inj same
    obtain ⟨cs, rfl⟩ := List.head?_eq_some_iff.mp ends
    obtain ⟨ps, pieces, eq⟩ := read.scanFrom_eq 0
    have first : (scanFrom 0 0 false ('(' :: cs)).map (·.piece) =
        .lexeme .leftParen :: (scanFrom 0 1 false cs).map (·.piece) := rfl
    rw [eq, List.map_append, pieces] at first
    cases ls with
    | nil => simp [scanFrom] at first
    | cons l ls =>
      have same := (List.cons.inj first).1
      rw [Piece.lexeme.inj same]
      rfl

/-- The lexical rules and the scanner agree on every text. -/
theorem scan_eq_lexemes_iff (text : List Char) (ls : List Lexeme) :
    (scan text).map (·.piece) = ls.map .lexeme ↔ Lexes text ls := by
  constructor
  · exact scans_of_scanFrom text false 0
  · rintro ⟨b, read⟩
    obtain ⟨ps, pieces, eq⟩ := read.scanFrom_eq 0
    rw [scan, eq, List.map_append, pieces]
    simp [scanFrom]

theorem Lexes.unique (first : Lexes text ls) (second : Lexes text ks) : ls = ks := by
  have same := ((scan_eq_lexemes_iff text ls).mpr first).symm.trans
    ((scan_eq_lexemes_iff text ks).mpr second)
  exact (List.map_inj_right fun _ _ => Piece.lexeme.inj).mp same

end Formulary
