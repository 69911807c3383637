import Formulary.Proofs.Blanks

/-! Digits of all scripts. A text is read as the same text with the usual digits is. Where a number or a
letter ends does not change with them; a control word would go on into usual digits behind it, but what is
read has a brace there, and no name of a symbol has digits. -/
namespace Formulary

variable {text rest : List Char} {ls ks : List Lexeme} {b b' : Bool} {goal : Goal} {sts : List Statement}

/-! Digits. -/

/-- The usual digit of the same value; what is no digit stays. -/
def usualDigit (c : Char) : Char :=
  match digitValue? c with
  | some value => Nat.digitChar value
  | none => c

def usualDigits (text : List Char) : List Char := text.map usualDigit

theorem usualDigits_cons (c : Char) (cs : List Char) :
    usualDigits (c :: cs) = usualDigit c :: usualDigits cs := rfl

theorem usualDigits_append (cs ds : List Char) :
    usualDigits (cs ++ ds) = usualDigits cs ++ usualDigits ds :=
  List.map_append

theorem digitValue?_lt {c : Char} {n : Nat} (value : digitValue? c = some n) : n < 10 := by
  obtain ⟨first, found, rfl⟩ := Option.map_eq_some_iff.mp value
  have range := List.find?_some found
  simp only [Bool.and_eq_true, decide_eq_true_eq] at range
  omega

theorem usualDigit_of_value {c : Char} {n : Nat} (value : digitValue? c = some n) :
    usualDigit c = Nat.digitChar n := by
  simp only [usualDigit, value]

theorem usualDigit_of_not_digit {c : Char} (notDigit : isDigit c = false) : usualDigit c = c := by
  have none : digitValue? c = none := by simpa [isDigit] using notDigit
  simp only [usualDigit, none]

theorem digitValue?_usualDigit (c : Char) : digitValue? (usualDigit c) = digitValue? c := by
  cases value : digitValue? c with
  | none => rw [usualDigit_of_not_digit (by simp [isDigit, value]), value]
  | some n =>
    have usual : ∀ n < 10, digitValue? (Nat.digitChar n) = some n := by decide
    rw [usualDigit_of_value value, usual n (digitValue?_lt value)]

theorem isDigit_usualDigit (c : Char) : isDigit (usualDigit c) = isDigit c := by
  rw [isDigit, digitValue?_usualDigit, isDigit]

theorem usualDigit_eq_iff {c d : Char} (notDigit : isDigit d = false) : usualDigit c = d ↔ c = d := by
  constructor
  · rintro rfl
    exact (usualDigit_of_not_digit (isDigit_usualDigit c ▸ notDigit)).symm
  · rintro rfl
    exact usualDigit_of_not_digit notDigit

theorem usualDigit_point : usualDigit '.' = '.' := usualDigit_of_not_digit isDigit_point

theorem usualDigits_eq_iff {cs : List Char} (plain : ∀ c ∈ cs, isDigit c = false) :
    usualDigits text = cs ↔ text = cs := by
  induction cs generalizing text with
  | nil => exact List.map_eq_nil_iff
  | cons c cs ih =>
    obtain ⟨first, others⟩ := List.forall_mem_cons.mp plain
    cases text with
    | nil => exact iff_of_false nofun nofun
    | cons d text =>
      rw [usualDigits_cons, List.cons.injEq, List.cons.injEq, usualDigit_eq_iff first, ih others]

theorem notDigit_of_any {cs : List Char} (none : cs.any isDigit = false) :
    ∀ c ∈ cs, isDigit c = false := by
  intro c member
  exact Bool.eq_false_of_not_eq_true (List.any_eq_false.mp none c member)

theorem usualDigits_of_plain {cs : List Char} (plain : ∀ c ∈ cs, isDigit c = false) :
    usualDigits cs = cs :=
  (usualDigits_eq_iff plain).mpr rfl

theorem isBlank_usualDigit (c : Char) : isBlank (usualDigit c) = isBlank c := by
  cases digit : isDigit c with
  | false => rw [usualDigit_of_not_digit digit]
  | true => rw [isBlank_of_isDigit digit, isBlank_of_isDigit ((isDigit_usualDigit c).trans digit)]

/-- Usual digits can stand in control words, the others cannot. -/
theorem isWordChar_usualDigit {c : Char} (digit : isDigit c = true) : isWordChar (usualDigit c) = true := by
  obtain ⟨n, value⟩ := Option.isSome_iff_exists.mp digit
  have usual : ∀ n < 10, isWordChar (Nat.digitChar n) = true := by decide
  rw [usualDigit_of_value value]
  exact usual n (digitValue?_lt value)

theorem digitsValue_usualDigits (digits : List Char) :
    digitsValue (usualDigits digits) = digitsValue digits := by
  simp only [digitsValue, usualDigits, List.foldl_map, digitValue?_usualDigit]

theorem numberValue_usualDigits (whole fraction : List Char) :
    numberValue (usualDigits whole) (usualDigits fraction) = numberValue whole fraction := by
  rw [numberValue, ← usualDigits_append, digitsValue_usualDigits, usualDigits, List.length_map, numberValue]

/-! Lexemes. -/

theorem Symbol.notDigit_of_mem_name (s : Symbol) : ∀ c ∈ s.name.toList, isDigit c = false := by
  apply notDigit_of_any
  cases s with
  | vec | sum => decide
  | unary s => cases s <;> decide
  | binary s => cases s <;> decide
  | ternary s => cases s <;> decide

namespace Lexeme

/-- The lexeme with usual digits. -/
def usual : Lexeme → Lexeme
  | .number whole fraction => .number (usualDigits whole) (usualDigits fraction)
  | l => l

theorem usual_eq_self {l : Lexeme} (notNumber : l.terminal ≠ .number) : l.usual = l := by
  cases l with
  | number => exact absurd rfl notNumber
  | _ => rfl

theorem usual_eq_index_iff {l : Lexeme} : l.usual = .index ↔ l = .index := by
  cases l <;> simp [usual]

/-- Only numbers have digits. -/
theorem notDigit_of_mem_text {l : Lexeme} (spelt : l.Spelt) (notNumber : l.terminal ≠ .number) :
    ∀ c ∈ l.text, isDigit c = false := by
  cases l with
  | number => exact absurd rfl notNumber
  | scalar d | callee d => exact List.forall_mem_singleton.mpr (isDigit_of_isLetter spelt)
  | symbol s => exact List.forall_mem_cons.mpr ⟨isDigit_backslash, Symbol.notDigit_of_mem_name s⟩
  | sign s =>
    apply notDigit_of_any
    cases s <;> decide
  | _ => exact notDigit_of_any (by decide)

theorem text_usual {l : Lexeme} (spelt : l.Spelt) : l.usual.text = usualDigits l.text := by
  by_cases number : l.terminal = .number
  · cases l with
    | number whole fraction =>
      cases fraction <;> simp [usual, text, usualDigits, usualDigit_point]
    | symbol s => cases s <;> cases number
    | _ => cases number
  · rw [usual_eq_self number, usualDigits_of_plain (notDigit_of_mem_text spelt number)]

theorem spelt_usual_iff {l : Lexeme} : l.usual.Spelt ↔ l.Spelt := by
  cases l with
  | number whole fraction =>
    have digits : (∀ c ∈ usualDigits whole ++ usualDigits fraction, isDigit c = true) ↔
        ∀ c ∈ whole ++ fraction, isDigit c = true := by
      rw [← usualDigits_append]
      constructor
      · intro inside c member
        exact (isDigit_usualDigit c).symm.trans (inside _ (List.mem_map_of_mem member))
      · intro inside c member
        obtain ⟨d, found, rfl⟩ := List.mem_map.mp member
        exact (isDigit_usualDigit d).trans (inside d found)
    exact and_congr (not_congr List.map_eq_nil_iff) digits
  | _ => exact Iff.rfl

theorem exists_number_of_usualDigits {whole fraction : List Char} (spelt : (number whole fraction).Spelt)
    (same : usualDigits text = (number whole fraction).text) :
    ∃ k : Lexeme, k.usual = .number whole fraction ∧ k.Spelt ∧ text = k.text := by
  cases fraction with
  | nil =>
    obtain rfl : usualDigits text = whole := same
    have back : (number text []).Spelt := spelt_usual_iff.mp spelt
    exact ⟨.number text [], rfl, back, rfl⟩
  | cons d ds =>
    obtain ⟨front, behind, rfl, rfl, fractional⟩ := List.map_eq_append_iff.mp same
    obtain ⟨point, others, rfl, atPoint, tail⟩ := List.map_eq_cons_iff.mp fractional
    obtain rfl : point = '.' := (usualDigit_eq_iff isDigit_point).mp atPoint
    obtain ⟨e, es, rfl, -⟩ := List.map_eq_cons_iff.mp tail
    rw [← tail] at spelt ⊢
    have back : (number front (e :: es)).Spelt := spelt_usual_iff.mp spelt
    exact ⟨.number front (e :: es), rfl, back, rfl⟩

/-- A text with the usual text of a lexeme is the text of a lexeme. -/
theorem exists_of_usualDigits {l : Lexeme} (spelt : l.Spelt) (same : usualDigits text = l.text) :
    ∃ k : Lexeme, k.usual = l ∧ k.Spelt ∧ text = k.text := by
  by_cases number : l.terminal = .number
  · cases l with
    | number whole fraction => exact exists_number_of_usualDigits spelt same
    | symbol s => cases s <;> cases number
    | _ => cases number
  · have plain := notDigit_of_mem_text spelt number
    exact ⟨l, usual_eq_self number, spelt, (usualDigits_eq_iff plain).mp same⟩

theorem head?_usualDigits_eq_iff {c : Char} (notDigit : isDigit c = false) :
    (usualDigits rest).head? = some c ↔ rest.head? = some c := by
  cases rest with
  | nil => exact Iff.rfl
  | cons d rest =>
    have first : some (usualDigit d) = some c ↔ some d = some c := by
      rw [Option.some.injEq, Option.some.injEq, usualDigit_eq_iff notDigit]
    exact first

theorem forall_head?_usualDigits {p : Char → Prop} (same : ∀ c, p (usualDigit c) ↔ p c) :
    (∀ c ∈ (usualDigits rest).head?, p c) ↔ ∀ c ∈ rest.head?, p c := by
  cases rest with
  | nil => exact Iff.rfl
  | cons d rest => simp [usualDigits, same]

theorem pointed_usualDigits : (∀ c cs, usualDigits rest = '.' :: c :: cs → isDigit c = false) ↔
    ∀ c cs, rest = '.' :: c :: cs → isDigit c = false := by
  constructor
  · rintro stop c cs rfl
    have inside : usualDigits ('.' :: c :: cs) = '.' :: usualDigit c :: usualDigits cs := by
      rw [usualDigits_cons, usualDigits_cons, usualDigit_point]
    exact (isDigit_usualDigit c).symm.trans (stop _ _ inside)
  · intro stop c cs inside
    obtain ⟨point, others, rfl, atPoint, tail⟩ := List.map_eq_cons_iff.mp inside
    obtain rfl : point = '.' := (usualDigit_eq_iff isDigit_point).mp atPoint
    obtain ⟨d, ds, rfl, rfl, -⟩ := List.map_eq_cons_iff.mp tail
    exact (isDigit_usualDigit d).trans (stop d ds rfl)

/-- Where a lexeme ends does not depend on the script, but for control words. -/
theorem endsBefore_usual {l : Lexeme} (notSymbol : ∀ s, l ≠ .symbol s) :
    l.usual.EndsBefore (usualDigits rest) ↔ l.EndsBefore rest := by
  have paren : isDigit '(' = false := by decide
  cases l with
  | number whole fraction =>
    have digits : (∀ c ∈ (usualDigits rest).head?, isDigit c = false) ↔
        ∀ c ∈ rest.head?, isDigit c = false :=
      forall_head?_usualDigits fun c => by rw [isDigit_usualDigit]
    exact and_congr digits (imp_congr List.map_eq_nil_iff pointed_usualDigits)
  | scalar => exact not_congr (head?_usualDigits_eq_iff paren)
  | callee => exact head?_usualDigits_eq_iff paren
  | symbol s => exact absurd rfl (notSymbol s)
  | _ => exact Iff.rfl

/-- A control word that ends before usual digits ends before others too. -/
theorem EndsBefore.of_usualDigits {l : Lexeme} (ends : l.usual.EndsBefore (usualDigits rest)) :
    l.EndsBefore rest := by
  by_cases symbol : ∃ s, l = .symbol s
  · obtain ⟨s, rfl⟩ := symbol
    intro c first
    have usual : isWordChar (usualDigit c) = false := by
      obtain ⟨cs, rfl⟩ := List.head?_eq_some_iff.mp first
      exact ends _ rfl
    cases digit : isDigit c with
    | false => rwa [usualDigit_of_not_digit digit] at usual
    | true => cases usual.symm.trans (isWordChar_usualDigit digit)
  · exact (endsBefore_usual fun s same => symbol ⟨s, same⟩).mp ends

end Lexeme

/-! Scans. -/

/-- No digit stands behind a control word that the reader takes. -/
theorem Scans.notDigit_behind_symbol {s : Symbol} (read : Scans b text ls b' [])
    (parted : (.symbol s :: ls).IsChain Lexeme.Parted) : ∀ c ∈ text.head?, isDigit c = false := by
  intro c first
  obtain ⟨cs, rfl⟩ := List.head?_eq_some_iff.mp first
  cases digit : isDigit c with
  | false => rfl
  | true =>
    cases read with
    | blank blank => cases blank.symm.trans (isBlank_of_isDigit digit)
    | @lexeme l _ _ after _ _ _ spelt ends index eq read =>
      obtain ⟨d, ds, start, -⟩ := text_ne_nil spelt
      rw [start] at eq
      obtain ⟨rfl, -⟩ := List.cons.inj eq
      have number := Lexeme.number_of_digit spelt start digit
      have brace : l = .leftBrace := (List.isChain_cons_cons.mp parted).1
      subst brace
      cases number

theorem Scans.endsBefore_usual {l : Lexeme} (read : Scans b text ls b' []) (ends : l.EndsBefore text)
    (parted : (l :: ls).IsChain Lexeme.Parted) : l.usual.EndsBefore (usualDigits text) := by
  by_cases symbol : ∃ s, l = .symbol s
  · obtain ⟨s, rfl⟩ := symbol
    have notDigit := read.notDigit_behind_symbol parted
    intro c first
    cases text with
    | nil => cases first
    | cons d text =>
      obtain rfl : usualDigit d = c := Option.some.inj first
      rw [usualDigit_of_not_digit (notDigit d rfl)]
      exact ends d rfl
  · exact (Lexeme.endsBefore_usual fun s same => symbol ⟨s, same⟩).mpr ends

/-- With usual digits a text has the same lexemes with usual digits, if a brace is behind each control
word. -/
theorem Scans.usualDigits (read : Scans b text ls b' []) (parted : ls.IsChain Lexeme.Parted) :
    Scans b (usualDigits text) (ls.map Lexeme.usual) b' [] := by
  generalize complete : ([] : List Char) = rest at read
  induction read with
  | done =>
    subst complete
    exact .done
  | blank blank _ ih => exact .blank ((isBlank_usualDigit _).trans blank) (ih parted complete)
  | @lexeme l _ _ after ls _ _ spelt ends index eq read ih =>
    subst complete
    have kept : Formulary.usualDigits (l.text ++ after) = l.usual.text ++ Formulary.usualDigits after := by
      rw [Lexeme.text_usual spelt, usualDigits_append]
    have endsUsual := read.endsBefore_usual ends parted
    have indexUsual : l.usual = .index → _ := fun same => index (Lexeme.usual_eq_index_iff.mp same)
    rw [eq, kept]
    exact .lexeme (Lexeme.spelt_usual_iff.mpr spelt) endsUsual indexUsual rfl (ih parted.of_cons rfl)

theorem Scans.of_usualDigits (read : Scans b (Formulary.usualDigits text) ks b' []) :
    ∃ ls, ls.map Lexeme.usual = ks ∧ Scans b text ls b' [] := by
  generalize same : Formulary.usualDigits text = usual at read
  generalize complete : ([] : List Char) = rest at read
  induction read generalizing text with
  | done =>
    subst complete
    obtain rfl : text = [] := List.map_eq_nil_iff.mp same
    exact ⟨[], rfl, .done⟩
  | blank blank _ ih =>
    obtain ⟨d, ds, rfl, rfl, tail⟩ := List.map_eq_cons_iff.mp same
    obtain ⟨ls, lexemes, later⟩ := ih tail complete
    exact ⟨ls, lexemes, .blank ((isBlank_usualDigit d).symm.trans blank) later⟩
  | @lexeme l _ _ after ks _ _ spelt ends index eq _ ih =>
    obtain ⟨front, behind, rfl, atFront, atBehind⟩ := List.map_eq_append_iff.mp (same.trans eq)
    obtain ⟨ls, lexemes, later⟩ := ih atBehind complete
    obtain ⟨k, rfl, speltBack, rfl⟩ := Lexeme.exists_of_usualDigits spelt atFront
    obtain rfl : Formulary.usualDigits behind = after := atBehind
    have indexBack : k = .index → _ := fun same => index (Lexeme.usual_eq_index_iff.mpr same)
    exact ⟨k :: ls, congrArg _ lexemes, .lexeme speltBack ends.of_usualDigits indexBack rfl later⟩

/-! What is read. -/

theorem feedWhole_number (site : Site) (p : Phrase) (offset : Nat) (whole fraction : List Char) :
    feedWhole site p offset (.number whole fraction) = none := by
  apply Option.eq_none_iff_forall_ne_some.mpr
  intro t fed
  cases feedWhole_follows fed

/-- The reader takes a number for its value. -/
theorem take_number_congr {whole fraction whole' fraction' : List Char}
    (same : numberValue whole fraction = numberValue whole' fraction') (s : State) (offset : Nat) :
    s.take offset (.number whole fraction) = s.take offset (.number whole' fraction') := by
  have operand (site : Site) :
      feedOperand site (.number whole fraction) = feedOperand site (.number whole' fraction') := by
    exact congrArg (fun x => some (State.inside site (.value (.plain (.number x)) .plain))) same
  cases s with
  | fresh goal done afterNewline =>
    have first (whole fraction : List Char) :
        (State.fresh goal done afterNewline).take offset (.number whole fraction) =
          (feedOperand (.atStart goal done) (.number whole fraction)).elim
            (.error (.fresh goal done afterNewline)) .ok := by
      cases goal <;> rfl
    rw [first, first, operand]
  | inside site focus =>
    cases focus with
    | operand =>
      have first (whole fraction : List Char) :
          (State.inside site .operand).take offset (.number whole fraction) =
            (feedOperand site (.number whole fraction)).elim (.error (.inside site .operand)) .ok := rfl
      rw [first, first, operand]
    | whole p =>
      have refused (whole fraction : List Char) :
          (State.inside site (.whole p)).take offset (.number whole fraction) =
            (feedWhole site p offset (.number whole fraction)).elim
              (.error (.inside site (.whole p))) .ok := rfl
      rw [refused, refused, feedWhole_number, feedWhole_number]
    | vecClose use => cases use <;> rfl
    | _ => rfl
  | ended | sealed => rfl

theorem take_usual (s : State) (offset : Nat) (l : Lexeme) : s.take offset l.usual = s.take offset l := by
  cases l with
  | number whole fraction => exact take_number_congr (numberValue_usualDigits whole fraction) s offset
  | _ => rfl

theorem takePieces_usual {s t : State} :
    s.takePieces (unplaced (ls.map Lexeme.usual)) = .ok t ↔ s.takePieces (unplaced ls) = .ok t := by
  induction ls generalizing s with
  | nil => exact Iff.rfl
  | cons l ls ih =>
    have step (u : State) :
        s.takePiece ⟨.lexeme l.usual, 0⟩ = .ok u ↔ s.takePiece ⟨.lexeme l, 0⟩ = .ok u := by
      rw [State.takePiece_lexeme rfl, State.takePiece_lexeme rfl, take_usual]
    calc s.takePieces (unplaced ((l :: ls).map Lexeme.usual)) = .ok t
        ↔ ∃ u, s.takePiece ⟨.lexeme l.usual, 0⟩ = .ok u ∧
            u.takePieces (unplaced (ls.map Lexeme.usual)) = .ok t := State.takePieces_cons_eq_ok
      _ ↔ ∃ u, s.takePiece ⟨.lexeme l, 0⟩ = .ok u ∧ u.takePieces (unplaced ls) = .ok t :=
          exists_congr fun u => and_congr (step u) ih
      _ ↔ s.takePieces (unplaced (l :: ls)) = .ok t := State.takePieces_cons_eq_ok.symm

/-- Lexemes of a text that the reader takes as it takes others are read as those are. -/
theorem ReadsText.retake (read : ReadsText goal ls sts) (scans : Scans b text ks b' [])
    (same : ∀ t : State, (State.start goal).takePieces (unplaced ls) = .ok t →
      (State.start goal).takePieces (unplaced ks) = .ok t) : ReadsText goal ks sts := by
  obtain ⟨t, clauses, run, finished, judged⟩ := read.run (unplaced_pieces ls)
  have held := takePieces_reads (stateReads_start goal) scans (unplaced_pieces ks) (same t run)
  exact (held.finish finished).text judged

theorem readStatements_usualDigits : readStatements goal (usualDigits text) = .ok sts ↔
    readStatements goal text = .ok sts := by
  rw [readStatements_ok_iff, readStatements_ok_iff]
  constructor
  · rintro ⟨ks, ⟨b, scans⟩, read⟩
    obtain ⟨ls, rfl, before⟩ := scans.of_usualDigits
    exact ⟨ls, ⟨b, before⟩, read.retake before fun t => takePieces_usual.mp⟩
  · rintro ⟨ls, ⟨b, scans⟩, read⟩
    have whole : ReadsText goal (ls ++ []) sts := by rwa [List.append_nil]
    have after := scans.usualDigits whole.parted.1
    exact ⟨ls.map Lexeme.usual, ⟨b, after⟩, read.retake after fun t => takePieces_usual.mpr⟩

/-! Sheets. -/

theorem splitLines_usualDigits (text : List Char) :
    splitLines (usualDigits text) = (splitLines text).map usualDigits := by
  have newline : isDigit '\n' = false := by decide
  induction text with
  | nil => rfl
  | cons c cs ih =>
    rw [usualDigits_cons, splitLines, splitLines, ih]
    by_cases atNewline : c = '\n'
    · rw [if_pos atNewline, if_pos ((usualDigit_eq_iff newline).mpr atNewline)]
      rfl
    · rw [if_neg atNewline, if_neg (mt (usualDigit_eq_iff newline).mp atNewline)]
      cases splitLines cs <;> rfl

theorem isEndLine_usualDigits (line : List Char) : isEndLine (usualDigits line) = isEndLine line := by
  have blanks : isBlank ∘ usualDigit = isBlank := funext isBlank_usualDigit
  have start : ((usualDigits line).dropWhile isBlank).take 3 =
      usualDigits ((line.dropWhile isBlank).take 3) := by
    rw [usualDigits, List.dropWhile_map, blanks, usualDigits, List.map_take]
  have plain : ∀ c ∈ Lexeme.endMark.text, isDigit c = false := notDigit_of_any (by decide)
  rw [isEndLine, isEndLine, start]
  exact decide_eq_decide.mpr (usualDigits_eq_iff plain)

theorem endLineStart?_usualDigits (text : List Char) :
    endLineStart? (usualDigits text) = endLineStart? text := by
  have search (lines : List (List Char)) (offset : Nat) :
      endLineStart?.go offset (lines.map usualDigits) = endLineStart?.go offset lines := by
    induction lines generalizing offset with
    | nil => rfl
    | cons line lines ih =>
      rw [List.map_cons, endLineStart?.go, endLineStart?.go, isEndLine_usualDigits, ih, usualDigits,
        List.length_map]
  rw [endLineStart?, splitLines_usualDigits, search, endLineStart?]

theorem sheetBody_usualDigits (text : List Char) :
    sheetBody (usualDigits text) = usualDigits (sheetBody text) := by
  rw [sheetBody, sheetBody, endLineStart?_usualDigits]
  cases endLineStart? text with
  | none => rfl
  | some offset => exact List.map_take.symm

theorem Goal.source_usualDigits (goal : Goal) (text : List Char) :
    goal.source (usualDigits text) = usualDigits (goal.source text) := by
  cases goal with
  | line | formula => rfl
  | sheet =>
    have plain : usualDigits endLine = endLine := usualDigits_of_plain (notDigit_of_any (by decide))
    rw [Goal.source, Goal.source, sheetBody_usualDigits, usualDigits_append, plain]

/-! All three entries. -/

theorem yields_usualDigits (goal : Goal) (text : List Char) (sts : List Statement) :
    Yields goal (usualDigits text) sts ↔ Yields goal text sts := by
  rw [yields_iff_source, yields_iff_source, goal.source_usualDigits, readStatements_usualDigits]

/-- A text is read as the text with the usual digits is, or both are refused. -/
theorem digits_of_every_script (text : List Char) :
    (∀ sheet, parseSheet text = .ok sheet ↔ parseSheet (usualDigits text) = .ok sheet) ∧
      (∀ s, parseStatement text = .ok s ↔ parseStatement (usualDigits text) = .ok s) ∧
        ∀ e, parseExpression text = .ok e ↔ parseExpression (usualDigits text) = .ok e := by
  refine ⟨fun sheet => ?_, fun s => ?_, fun e => ?_⟩
  · exact (yields_usualDigits .sheet text sheet).symm
  · rw [parseStatement_eq_ok_iff, parseStatement_eq_ok_iff]
    exact readStatements_usualDigits.symm
  · rw [parseExpression_eq_ok_iff, parseExpression_eq_ok_iff]
    exact readStatements_usualDigits.symm

/-- An Arabic three is a number. Behind a sine it is no operand, and the usual three there makes another
control word, so that both are refused. -/
example : (parseExpression "x_\x7b٣\x7d".toList).isOk = true ∧
    (parseExpression "\\sin٣".toList).isOk = false ∧ (parseExpression "\\sin3".toList).isOk = false := by
  decide

end Formulary
