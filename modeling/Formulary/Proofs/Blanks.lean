import Formulary.Proofs.Agreement
import Formulary.Proofs.Language
import Formulary.Proofs.RoundTrip

/-! Blanks only part lexemes. No two lexemes that the reader takes in a row would run into one another
without the blanks between them, and more blanks change nothing but what is right behind them: a
parenthesis behind a callee, and an index mark. -/
namespace Formulary

variable {text u v w blanks : List Char} {ls ks : List Lexeme} {b b' b₁ : Bool}

def withoutBlanks (text : List Char) : List Char := text.filter fun c => !isBlank c

/-! Lexemes in a row. -/

namespace Lexeme

/-- The first lexeme does not go on into the second when no blank is between them. -/
def Parted (l k : Lexeme) : Prop :=
  match l with
  | .number _ _ => k.terminal ≠ .number
  | .scalar _ => k ≠ .leftParen
  | .symbol _ => k = .leftBrace
  | _ => True

theorem number_of_digit {l : Lexeme} {cs : List Char} (spelt : l.Spelt) (start : l.text = c :: cs)
    (digit : isDigit c = true) : l.terminal = .number := by
  cases l with
  | number => rfl
  | scalar d | callee d =>
    obtain ⟨rfl, -⟩ := List.cons.inj start
    cases (isDigit_of_isLetter spelt).symm.trans digit
  | sign s =>
    obtain ⟨rfl, -⟩ := List.cons.inj start
    cases s <;> cases digit
  | symbol | index | endMark | equals | newline | leftParen | rightParen | leftBrace | rightBrace
  | comma =>
    obtain ⟨rfl, -⟩ := List.cons.inj start
    cases digit

theorem Parted.endsBefore {l k : Lexeme} (parted : l.Parted k) (notCallee : ∀ f, l ≠ .callee f)
    (spelt : k.Spelt) (z : List Char) : l.EndsBefore (k.text ++ z) := by
  cases l with
  | number whole fraction =>
    obtain ⟨c, cs, start, -⟩ := text_ne_nil spelt
    have notPoint := text_head_ne_point spelt
    rw [start] at notPoint ⊢
    constructor
    · intro d first
      obtain rfl : c = d := by simpa using first
      cases digit : isDigit c with
      | false => rfl
      | true => exact absurd (number_of_digit spelt start digit) parted
    · intro _ d ds same
      obtain ⟨rfl, -⟩ := List.cons.inj same
      exact absurd rfl notPoint
  | scalar c =>
    intro paren
    obtain ⟨d, ds, start, -⟩ := text_ne_nil spelt
    rw [start] at paren
    obtain rfl : d = '(' := by simpa using paren
    exact parted (leftParen_of_mem spelt (by simp [start]))
  | symbol s =>
    obtain rfl : k = .leftBrace := parted
    intro c first
    obtain rfl : '{' = c := by simpa [text] using first
    decide
  | callee f => exact absurd rfl (notCallee f)
  | _ => exact trivial

end Lexeme

theorem take_number {s t : State} (taken : s.take offset (.number whole fraction) = .ok t) :
    ∃ site p, t = .inside site (.value p .plain) := by
  cases s with
  | fresh goal done afterNewline =>
    cases taken
    exact ⟨_, _, rfl⟩
  | inside site focus =>
    cases focus with
    | operand =>
      cases taken
      exact ⟨_, _, rfl⟩
    | whole => exact nomatch feedWhole_follows (elim_ok taken)
    | vecClose use => cases use <;> cases taken
    | _ => cases taken
  | ended | sealed => cases taken

def Focus.WantsBrace : Focus → Prop
  | .vecBrace _ | .sumBrace | .operandBrace _ _ => True
  | _ => False

theorem take_symbol {s t : State} (taken : s.take offset (.symbol m) = .ok t) :
    ∃ site focus, t = .inside site focus ∧ focus.WantsBrace := by
  cases s with
  | fresh goal done afterNewline => cases m <;> cases taken <;> exact ⟨_, _, rfl, trivial⟩
  | inside site focus =>
    cases focus with
    | operand => cases m <;> cases taken <;> exact ⟨_, _, rfl, trivial⟩
    | sumName =>
      cases m with
      | vec =>
        cases taken
        exact ⟨_, _, rfl, trivial⟩
      | _ => cases taken
    | whole => exact nomatch feedWhole_follows (elim_ok taken)
    | vecClose use => cases use <;> cases taken
    | _ => cases taken
  | ended | sealed => cases taken

theorem Focus.WantsBrace.take {focus : Focus} (wants : focus.WantsBrace)
    (taken : (State.inside site focus).take offset l = .ok t) : l = .leftBrace := by
  cases focus with
  | vecBrace | sumBrace | operandBrace =>
    cases l with
    | leftBrace => rfl
    | _ => cases taken
  | _ => exact wants.elim

theorem take_parted {s t u : State} (first : s.take offset l = .ok t)
    (second : t.take offset' k = .ok u) : l.Parted k := by
  cases l with
  | number whole fraction =>
    obtain ⟨site, p, rfl⟩ := take_number first
    intro number
    cases k with
    | number => cases second
    | symbol m => cases m <;> cases number
    | _ => cases number
  | scalar c =>
    rintro rfl
    cases (take_scalar_paren first offset').symm.trans second
  | symbol m =>
    obtain ⟨site, focus, rfl, wants⟩ := take_symbol first
    exact wants.take second
  | _ => exact trivial

theorem takePieces_parted {s t : State} {ps : List Placed} (taken : s.takePieces ps = .ok t)
    (pieces : ps.map (·.piece) = ls.map .lexeme) : ls.IsChain Lexeme.Parted := by
  induction ls generalizing s ps with
  | nil => exact .nil
  | cons l ls ih =>
    obtain ⟨u, offset, qs, first, tail, later⟩ := takePieces_cons_ok taken pieces
    cases ls with
    | nil => exact .singleton l
    | cons k ls =>
      obtain ⟨v, offset', _, second, -, -⟩ := takePieces_cons_ok later tail
      exact .cons_cons (take_parted first second) (ih later tail)

theorem takePieces_no_index {t : State} {ps : List Placed}
    (taken : (State.start goal).takePieces ps = .ok t) (pieces : ps.map (·.piece) = ls.map .lexeme) :
    ls.head? ≠ some .index := by
  intro first
  obtain ⟨ks, rfl⟩ := List.head?_eq_some_iff.mp first
  obtain ⟨u, offset, _, step, -, -⟩ := takePieces_cons_ok taken pieces
  cases step

/-! Without blanks. -/

theorem withoutBlanks_append (u v : List Char) :
    withoutBlanks (u ++ v) = withoutBlanks u ++ withoutBlanks v :=
  List.filter_append ..

theorem withoutBlanks_text {l : Lexeme} (spelt : l.Spelt) : withoutBlanks l.text = l.text := by
  apply List.filter_eq_self.mpr
  intro c member
  rw [Lexeme.isBlank_of_mem_text spelt member]
  rfl

theorem isBlank_of_mem_withoutBlanks (member : c ∈ withoutBlanks text) : isBlank c = false := by
  simpa using List.of_mem_filter member

theorem Scans.visible (read : Scans b text ls b' []) (blankFree : ∀ c ∈ text, isBlank c = false) :
    (ls = [] ∧ text = []) ∨ ∃ k ks z, ls = k :: ks ∧ k.Spelt ∧ text = k.text ++ z := by
  cases read with
  | done => exact .inl ⟨rfl, rfl⟩
  | blank blank => cases (blankFree _ (.head _)).symm.trans blank
  | lexeme spelt _ _ eq => exact .inr ⟨_, _, _, rfl, spelt, eq⟩

/-- Without its blanks a text has the same lexemes, if they are parted without them. -/
theorem Scans.squeeze (read : Scans b text ls b' []) (parted : ls.IsChain Lexeme.Parted) :
    Scans false (withoutBlanks text) ls false [] := by
  generalize complete : ([] : List Char) = rest at read
  induction read with
  | done =>
    subst complete
    exact .done
  | @blank c cs _ _ _ _ blank _ ih =>
    have dropped : withoutBlanks (c :: cs) = withoutBlanks cs := by simp [withoutBlanks, blank]
    rw [dropped]
    exact ih parted complete
  | @lexeme l _ _ after ls _ _ spelt ends index eq read ih =>
    subst complete
    have later := ih parted.of_cons rfl
    have kept : withoutBlanks (l.text ++ after) = l.text ++ withoutBlanks after := by
      rw [withoutBlanks_append, withoutBlanks_text spelt]
    rw [eq, kept]
    refine .lexeme spelt ?_ (fun _ => rfl) rfl later
    by_cases callee : ∃ f, l = .callee f
    · -- The parenthesis of a callee stands right behind it.
      obtain ⟨f, rfl⟩ := callee
      obtain ⟨z, rfl⟩ := List.head?_eq_some_iff.mp ends
      rfl
    · have notCallee : ∀ f, l ≠ .callee f := fun f same => callee ⟨f, same⟩
      rcases later.visible fun c => isBlank_of_mem_withoutBlanks with
        ⟨-, nothing⟩ | ⟨k, ks, z, rfl, speltNext, next⟩
      · rw [nothing]
        have before : l.EndsBefore ([] ++ after) := ends
        exact before.of_append fun _ => notCallee
      · rw [next]
        exact (List.isChain_cons_cons.mp parted).1.endsBefore notCallee speltNext z

/-! More blanks. -/

theorem Scans.onlyBlanks (allBlank : ∀ c ∈ blanks, isBlank c = true) (filled : blanks ≠ []) (b : Bool)
    (z : List Char) : Scans b (blanks ++ z) [] true z := by
  induction blanks generalizing b with
  | nil => exact absurd rfl filled
  | cons c cs ih =>
    obtain ⟨first, rest⟩ := List.forall_mem_cons.mp allBlank
    cases cs with
    | nil => exact .blank first .done
    | cons d ds => exact .blank first (ih rest nofun true)

/-- A blank that is remembered matters to an index mark only. -/
theorem Scans.afterBlank (read : Scans b text ls b' []) (notIndex : ls.head? ≠ some .index) (b₁ : Bool) :
    ∃ b₂, Scans b₁ text ls b₂ [] := by
  cases ls with
  | nil =>
    cases read with
    | done => exact ⟨b₁, .done⟩
    | blank blank read => exact ⟨b', .blank blank read⟩
  | cons l ls =>
    have different : l ≠ .index := fun same => notIndex (congrArg some same)
    exact ⟨b', read.reflag different b₁⟩

/-- Blanks may stand between lexemes, behind anything but a callee and before anything but an index
mark. -/
theorem Scans.insert (allBlank : ∀ c ∈ blanks, isBlank c = true)
    (first : Scans false (u ++ v) ls b₁ v) (last : Scans b₁ v ks b' [])
    (notCallee : ∀ f, ls.getLast? ≠ some (.callee f)) (notIndex : ks.head? ≠ some .index) :
    Lexes (u ++ (blanks ++ v)) (ls ++ ks) := by
  by_cases filled : blanks = []
  · subst filled
    exact ⟨b', first.trans last⟩
  obtain ⟨ls', alone, rfl | ⟨-, front, f, rfl, -⟩⟩ := first.stop
  · have ends : ∀ l ∈ ls'.getLast?, l.EndsBefore (blanks ++ v) := by
      intro l member
      obtain ⟨c, cs, rfl⟩ := List.exists_cons_of_ne_nil filled
      refine (parts_of_isBlank (allBlank c (.head _))).endsBefore (fun f same => ?_) (cs ++ v)
      exact notCallee f (same ▸ member)
    have before := alone.extend ends
    obtain ⟨b₂, behind⟩ := last.afterBlank notIndex true
    exact ⟨b₂, before.trans ((Scans.onlyBlanks allBlank filled b₁ v).trans behind)⟩
  · exact absurd (by simp) (notCallee f)

/-! The part of a sheet that is read. -/

/-- A sheet without capitals up to the end line, if there is one. -/
inductive EndsAt : List Char → List Char → Prop where
  | whole : 'E' ∉ body → EndsAt body []
  | endLine : 'E' ∉ body → (body = [] ∨ ∃ front, body = front ++ ['\n']) →
    (∀ c ∈ bs, isBlank c = true) → EndsAt body (bs ++ (Lexeme.endMark.text ++ z))

theorem exists_unlines {body : List Char} (ends : body = [] ∨ ∃ front, body = front ++ ['\n']) :
    ∃ lines, (∀ line ∈ lines, '\n' ∉ line) ∧ body = unlines lines := by
  rcases ends with rfl | ⟨front, rfl⟩
  · exact ⟨[], nofun, rfl⟩
  · exact ⟨splitLines front, fun _ => oneLine_of_mem_splitLines, (splitLines_text front).symm⟩

theorem isEndLine_blanks (allBlank : ∀ c ∈ blanks, isBlank c = true) (z : List Char) :
    isEndLine (blanks ++ (Lexeme.endMark.text ++ z)) = true := by
  have mark : ∀ c ∈ (Lexeme.endMark.text ++ z).head?, isBlank c = false := by
    intro c first
    obtain rfl : 'E' = c := by simpa [Lexeme.text] using first
    decide
  rw [isEndLine, dropWhile_append_stop allBlank mark, decide_eq_true_eq]
  rfl

theorem EndsAt.sheetBody {body rest : List Char} (ends : EndsAt body rest) :
    sheetBody (body ++ rest) = body := by
  cases ends with
  | whole plain => rw [List.append_nil, sheetBody_of_plain plain]
  | @endLine blanks z plain closed allBlank =>
    obtain ⟨lines, oneLines, rfl⟩ := exists_unlines closed
    obtain ⟨first, after, split⟩ := List.exists_cons_of_ne_nil (splitLines_ne_nil z)
    have free : '\n' ∉ blanks ++ Lexeme.endMark.text := by
      intro member
      rcases List.mem_append.mp member with found | found
      · cases allBlank _ found
      · exact absurd found (by decide)
    have line : splitLines (blanks ++ (Lexeme.endMark.text ++ z)) =
        (blanks ++ (Lexeme.endMark.text ++ first)) :: after := by
      simpa using splitLines_append_line free split
    have lines_eq := (splitLines_unlines_append oneLines
      (blanks ++ (Lexeme.endMark.text ++ z))).trans (congrArg _ line)
    refine (bodyOf_sheetBody _).unique (.upTo lines _ after lines_eq (isEndLine_blanks allBlank first) ?_)
    intro l member
    cases mark : isEndLine l with
    | false => rfl
    | true =>
      have found : l ∈ splitLines (unlines lines) := by
        rw [splitLines_unlines oneLines]
        exact List.mem_append_left _ member
      exact absurd (mem_of_mem_splitLines found (mem_of_isEndLine mark)) plain

/-- A sheet of which the part that is read has no capitals is of this kind. -/
theorem endsAt_sheetBody (plain : 'E' ∉ sheetBody text) :
    ∃ rest, text = sheetBody text ++ rest ∧ EndsAt (sheetBody text) rest := by
  generalize same : sheetBody text = body at plain ⊢
  have part : BodyOf text body := same ▸ bodyOf_sheetBody text
  cases part with
  | whole => exact ⟨[], (List.append_nil _).symm, .whole plain⟩
  | upTo before line after split ends =>
    obtain ⟨tail, whole, -⟩ := text_of_splitLines split
    have mark : (line.dropWhile isBlank).take 3 = Lexeme.endMark.text := of_decide_eq_true ends
    have line_eq : line = line.takeWhile isBlank ++
        (Lexeme.endMark.text ++ (line.dropWhile isBlank).drop 3) := by
      rw [← mark, List.take_append_drop, List.takeWhile_append_dropWhile]
    have closed : unlines before = [] ∨ ∃ front, unlines before = front ++ ['\n'] := by
      rcases List.eq_nil_or_concat before with rfl | ⟨front, last, rfl⟩
      · exact .inl rfl
      · exact .inr ⟨unlines front ++ last, by simp [unlines]⟩
    refine ⟨line ++ tail, whole, ?_⟩
    rw [line_eq, List.append_assoc, List.append_assoc]
    exact .endLine plain closed fun c => mem_takeWhile

theorem EndsAt.withoutBlanks {body rest : List Char} (ends : EndsAt body rest) :
    EndsAt (withoutBlanks body) (withoutBlanks rest) := by
  have kept : ∀ {cs}, 'E' ∉ cs → 'E' ∉ Formulary.withoutBlanks cs := fun plain member =>
    plain (List.mem_of_mem_filter member)
  cases ends with
  | whole plain => exact .whole (kept plain)
  | @endLine blanks z plain closed allBlank =>
    have gone : Formulary.withoutBlanks blanks = [] :=
      List.filter_eq_nil_iff.mpr fun c member => by simp [allBlank c member]
    have mark : Formulary.withoutBlanks (blanks ++ (Lexeme.endMark.text ++ z)) =
        [] ++ (Lexeme.endMark.text ++ Formulary.withoutBlanks z) := by
      rw [withoutBlanks_append, withoutBlanks_append, gone]
      rfl
    rw [mark]
    refine .endLine (kept plain) ?_ nofun
    rcases closed with rfl | ⟨front, rfl⟩
    · exact .inl rfl
    · exact .inr ⟨Formulary.withoutBlanks front, withoutBlanks_append ..⟩

theorem EndsAt.insert {rest : List Char} (ends : EndsAt (u ++ v) rest)
    (allBlank : ∀ c ∈ blanks, isBlank c = true) :
    EndsAt (u ++ (blanks ++ v)) rest ∨ v = [] ∧ EndsAt u (blanks ++ rest) := by
  have kept : 'E' ∉ u ++ v → 'E' ∉ u ++ (blanks ++ v) := by
    intro plain member
    have blank : isBlank 'E' = false := by decide
    have notBlank : 'E' ∉ blanks := fun found => by simp [allBlank _ found] at blank
    simp_all
  cases ends with
  | whole plain => exact .inl (.whole (kept plain))
  | @endLine others z plain closed allBlank' =>
    rcases List.eq_nil_or_concat v with rfl | ⟨front, c, rfl⟩
    · rw [List.append_nil] at plain closed
      have mark : blanks ++ (others ++ (Lexeme.endMark.text ++ z)) =
          blanks ++ others ++ (Lexeme.endMark.text ++ z) := by simp
      rw [mark]
      exact .inr ⟨rfl, .endLine plain closed (List.forall_mem_append.mpr ⟨allBlank, allBlank'⟩)⟩
    · rw [List.concat_eq_append] at plain closed kept ⊢
      refine .inl (.endLine (kept plain) (.inr ?_) allBlank')
      rcases closed with none | ⟨body, last⟩
      · simp at none
      · rw [← List.append_assoc] at last
        obtain ⟨-, newline⟩ := List.append_inj' last rfl
        exact ⟨u ++ (blanks ++ front), by simp [newline]⟩

/-! Whole texts. -/

/-- The part of a text that is read. -/
def Goal.part (goal : Goal) (text : List Char) : List Char :=
  match goal with
  | .sheet => sheetBody text
  | .line | .formula => text

/-- What is read of a text, with the rest of it. -/
def Goal.Ends (goal : Goal) (part rest : List Char) : Prop :=
  match goal with
  | .sheet => EndsAt part rest
  | .line | .formula => rest = []

namespace Goal.Ends

variable {goal : Goal} {part rest : List Char}

theorem part_eq (ends : goal.Ends part rest) : goal.part (part ++ rest) = part := by
  cases goal with
  | sheet => exact EndsAt.sheetBody ends
  | line | formula =>
    obtain rfl : rest = [] := ends
    exact List.append_nil part

theorem withoutBlanks (ends : goal.Ends part rest) :
    goal.Ends (withoutBlanks part) (withoutBlanks rest) := by
  cases goal with
  | sheet => exact EndsAt.withoutBlanks ends
  | line | formula =>
    obtain rfl : rest = [] := ends
    rfl

/-- Blanks directly before an end line belong to it. -/
theorem insert (ends : goal.Ends (u ++ v) rest) (allBlank : ∀ c ∈ blanks, isBlank c = true) :
    goal.Ends (u ++ (blanks ++ v)) rest ∨ v = [] ∧ goal.Ends u (blanks ++ rest) := by
  cases goal with
  | sheet => exact EndsAt.insert ends allBlank
  | line | formula => exact .inl ends

theorem append (ends : goal.Ends part rest) (filled : rest ≠ []) (w : List Char) :
    goal.Ends part (rest ++ w) := by
  cases goal with
  | line | formula => exact absurd ends filled
  | sheet =>
    cases ends with
    | whole => exact absurd rfl filled
    | @endLine blanks z plain closed allBlank =>
      have mark : blanks ++ (Lexeme.endMark.text ++ z) ++ w =
          blanks ++ (Lexeme.endMark.text ++ (z ++ w)) := by simp
      rw [mark]
      exact .endLine plain closed allBlank

end Goal.Ends

/-- A text is read as these statements. -/
def Yields (goal : Goal) (text : List Char) (sts : List Statement) : Prop :=
  match goal with
  | .sheet => parseSheet text = .ok sts
  | .line => ∃ s, parseStatement text = .ok s ∧ sts = [s]
  | .formula => ∃ e, parseExpression text = .ok e ∧ sts = [.expression e]

theorem yields_iff_source (goal : Goal) (text : List Char) (sts : List Statement) :
    Yields goal text sts ↔ readStatements goal (goal.source text) = .ok sts := by
  cases goal with
  | sheet => exact parseSheet_eq_ok_iff text sts
  | line =>
    constructor
    · rintro ⟨s, ok, rfl⟩
      exact (parseStatement_eq_ok_iff text s).mp ok
    · intro ok
      obtain ⟨s, rfl⟩ := readStatements_single ok nofun
      exact ⟨s, (parseStatement_eq_ok_iff text s).mpr ok, rfl⟩
  | formula =>
    constructor
    · rintro ⟨e, ok, rfl⟩
      exact (parseExpression_eq_ok_iff text e).mp ok
    · intro ok
      obtain ⟨e, rfl⟩ := readStatements_formula ok
      exact ⟨e, (parseExpression_eq_ok_iff text e).mpr ok, rfl⟩

/-- The lexemes behind those of the part that is read. -/
def Goal.closing : Goal → List Lexeme
  | .sheet => [.newline, .endMark]
  | .line | .formula => []

/-- What is read depends on the lexemes of the part that is read. -/
theorem yields_iff (goal : Goal) (text : List Char) (sts : List Statement) : Yields goal text sts ↔
    ∃ ls, Lexes (goal.part text) ls ∧ ReadsText goal (ls ++ goal.closing) sts := by
  rw [yields_iff_source, readStatements_ok_iff]
  constructor
  · rintro ⟨ks, lexes, read⟩
    cases goal with
    | sheet =>
      obtain ⟨ls, rfl, body⟩ := lexes.of_endLine
      exact ⟨ls, body, read⟩
    | line | formula => exact ⟨ks, lexes, (List.append_nil ks).symm ▸ read⟩
  · rintro ⟨ls, lexes, read⟩
    refine ⟨_, ?_, read⟩
    cases goal with
    | sheet => exact (lexes_endLine_iff ls).mpr lexes
    | line | formula => exact (List.append_nil ls).symm ▸ lexes

theorem Lexes.no_capitals (lexes : Lexes text ls) (noMark : .endMark ∉ ls) : 'E' ∉ text := by
  intro member
  obtain ⟨b, scans⟩ := id lexes
  rcases scans.mem_text member with blank | ⟨l, found, inside⟩
  · cases blank
  · obtain rfl := Lexeme.capital_of_mem (lexes.spelt l found) inside
    exact noMark found

/-- A text is the part that is read, and behind it nothing or an end line. -/
theorem Yields.exists_part (read : Yields goal text sts) : ∃ part rest ls, text = part ++ rest ∧
    goal.Ends part rest ∧ Lexes part ls ∧ ReadsText goal (ls ++ goal.closing) sts := by
  obtain ⟨ls, lexes, reads⟩ := (yields_iff goal text sts).mp read
  cases goal with
  | line | formula => exact ⟨text, [], ls, (List.append_nil text).symm, rfl, lexes, reads⟩
  | sheet =>
    generalize same : ls ++ Goal.sheet.closing = ks at reads
    cases reads with
    | single notSheet => exact absurd rfl notSheet
    | @sheet us _ lines =>
      have last : ls ++ [.newline] ++ [.endMark] = us ++ [.endMark] := by
        simpa [Goal.closing] using same
      obtain ⟨rfl, -⟩ := List.append_inj' last rfl
      have noMark : .endMark ∉ ls := fun member => lines.no_endMark (List.mem_append_left _ member)
      obtain ⟨rest, split, ends⟩ := endsAt_sheetBody (lexes.no_capitals noMark)
      exact ⟨sheetBody text, rest, ls, split, ends, lexes, same ▸ .sheet lines⟩

theorem Yields.of_part {part rest : List Char} (ends : goal.Ends part rest) (lexes : Lexes part ls)
    (reads : ReadsText goal (ls ++ goal.closing) sts) : Yields goal (part ++ rest) sts := by
  refine (yields_iff goal _ sts).mpr ⟨ls, ?_, reads⟩
  rw [ends.part_eq]
  exact lexes

/-- Lexemes with no places of their own. -/
def unplaced (ls : List Lexeme) : List Placed := ls.map fun l => ⟨.lexeme l, 0⟩

theorem unplaced_pieces (ls : List Lexeme) : (unplaced ls).map (·.piece) = ls.map .lexeme := by
  rw [unplaced, List.map_map]
  rfl

/-- What the reader has taken is parted without blanks, and no index mark stands first. -/
theorem ReadsText.parted (read : ReadsText goal (ls ++ ks) sts) :
    ls.IsChain Lexeme.Parted ∧ ls.head? ≠ some .index := by
  have pieces := unplaced_pieces (ls ++ ks)
  obtain ⟨t, clauses, taken, -, -⟩ := read.run pieces
  obtain ⟨s, front, back, frontPieces, -, run, -⟩ := takePieces_split taken pieces
  exact ⟨takePieces_parted run frontPieces, takePieces_no_index run frontPieces⟩

/-- A place in a text where blanks can be put: at either end, or in the part that is read between two
lexemes, but not between a callee and its parenthesis and not directly before an index mark. -/
inductive Gap (goal : Goal) : List Char → List Char → Prop where
  | start : Gap goal [] back
  | finish : Gap goal front []
  | between : goal.part (front ++ (back ++ rest)) = front ++ back →
    Scans false (front ++ back) before marked back → Scans marked back after marked' [] →
    (∀ f, before.getLast? ≠ some (.callee f)) → after.head? ≠ some .index →
    Gap goal front (back ++ rest)

theorem Yields.withoutBlanks (read : Yields goal text sts) : Yields goal (withoutBlanks text) sts := by
  obtain ⟨part, rest, ls, rfl, ends, ⟨b, scans⟩, reads⟩ := read.exists_part
  rw [withoutBlanks_append]
  exact .of_part ends.withoutBlanks ⟨false, scans.squeeze reads.parted.1⟩ reads

theorem Yields.insert {rest : List Char} (allBlank : ∀ c ∈ blanks, isBlank c = true)
    (ends : goal.Ends (u ++ v) rest) (first : Scans false (u ++ v) ls b v) (last : Scans b v ks b' [])
    (notCallee : ∀ f, ls.getLast? ≠ some (.callee f)) (notIndex : ks.head? ≠ some .index)
    (reads : ReadsText goal (ls ++ ks ++ goal.closing) sts) :
    Yields goal (u ++ (blanks ++ (v ++ rest))) sts := by
  rcases ends.insert allBlank with inside | ⟨rfl, before⟩
  · have lexes := first.insert allBlank last notCallee notIndex
    simpa using Yields.of_part inside lexes reads
  · rw [List.append_nil] at first
    exact .of_part before ⟨b', first.trans last⟩ reads

theorem Yields.gap (read : Yields goal (u ++ w) sts) (allBlank : ∀ c ∈ blanks, isBlank c = true)
    (gap : Gap goal u w) : Yields goal (u ++ (blanks ++ w)) sts := by
  obtain ⟨part, rest, ls, split, ends, lexes, reads⟩ := read.exists_part
  obtain ⟨b, scans⟩ := id lexes
  cases gap with
  | start =>
    obtain rfl : w = part ++ rest := split
    have whole : goal.Ends ([] ++ part) rest := ends
    exact Yields.insert allBlank whole .done scans nofun reads.parted.2 reads
  | finish =>
    obtain rfl : u = part ++ rest := by simpa using split
    by_cases filled : rest = []
    · subst filled
      have whole : goal.Ends (part ++ []) [] := by simpa using ends
      have first : Scans false (part ++ []) ls b [] := by simpa using scans
      have notCallee : ∀ f, ls.getLast? ≠ some (.callee f) := fun f last =>
        lexes.last_not_callee _ last f rfl
      have reads' : ReadsText goal (ls ++ [] ++ goal.closing) sts := by simpa using reads
      simpa using Yields.insert allBlank whole first .done notCallee nofun reads'
    · simpa using Yields.of_part (ends.append filled blanks) lexes reads
  | @between _ back _ _ _ _ _ here first last notCallee notIndex =>
    have same : part = u ++ back := by
      rw [← here, split]
      exact ends.part_eq.symm
    subst same
    obtain rfl := lexes.unique ⟨_, first.trans last⟩
    rw [← List.append_assoc] at split
    obtain rfl := List.append_cancel_left split
    exact Yields.insert allBlank ends first last notCallee notIndex reads

/-- Blanks do not matter: without them a text is read as the same, and with more of them between its
lexemes too. -/
theorem blanks_do_not_matter (goal : Goal) (text : List Char) (sts : List Statement)
    (read : Yields goal text sts) : Yields goal (withoutBlanks text) sts ∧
    ∀ u w blanks, text = u ++ w → (∀ c ∈ blanks, isBlank c = true) → Gap goal u w →
      Yields goal (u ++ (blanks ++ w)) sts := by
  refine ⟨read.withoutBlanks, ?_⟩
  rintro u w blanks rfl allBlank gap
  exact read.gap allBlank gap

theorem blanks_do_not_matter_in_sheet :
    parseSheet "x=1\nEOFy".toList =
        .ok [.declaration (.name (.scalar 'x')) (.number (numberValue ['1'] []))] ∧
      parseSheet "x\t\r = 1\t\n EOF y".toList =
        .ok [.declaration (.name (.scalar 'x')) (.number (numberValue ['1'] []))] := by
  have read : Yields .sheet "x = 1\t\n EOF y".toList
      [.declaration (.name (.scalar 'x')) (.number (numberValue ['1'] []))] := rfl
  have gap : Gap .sheet ['x'] " = 1\t\n EOF y".toList := by
    have letter : isLetter 'x' = true := by decide
    have digits : (Lexeme.number ['1'] []).Spelt := by simp [Lexeme.Spelt]; decide
    have tab : isDigit '\t' = false := by decide
    have number : (Lexeme.number ['1'] []).EndsBefore ['\t', '\n'] := by
      refine ⟨by simpa using tab, fun _ c cs same => ?_⟩
      cases same
    have equals : Lexeme.equals = .index → true = false := Lexeme.noConfusion
    have one : Lexeme.number ['1'] [] = .index → true = false := Lexeme.noConfusion
    have first : Scans false ['x', ' ', '=', ' ', '1', '\t', '\n'] [.scalar 'x'] false
        [' ', '=', ' ', '1', '\t', '\n'] :=
      .lexeme letter (by simp [Lexeme.EndsBefore]) (fun _ => rfl) rfl .done
    have last : Scans false [' ', '=', ' ', '1', '\t', '\n'] [.equals, .number ['1'] [], .newline]
        false [] :=
      .blank rfl <| .lexeme trivial trivial equals rfl <| .blank rfl <|
        .lexeme digits number one rfl <| .blank rfl <| .lexeme trivial trivial Lexeme.noConfusion rfl .done
    have part : Goal.sheet.part ['x', ' ', '=', ' ', '1', '\t', '\n', ' ', 'E', 'O', 'F', ' ', 'y'] =
        ['x', ' ', '=', ' ', '1', '\t', '\n'] := by decide
    exact .between part first last (by simp) (by simp)
  obtain ⟨without, more⟩ := blanks_do_not_matter .sheet _ _ read
  have blanks : ∀ c ∈ ['\t', '\r'], isBlank c = true :=
    List.forall_mem_cons.mpr ⟨rfl, List.forall_mem_singleton.mpr rfl⟩
  exact ⟨without, more ['x'] _ ['\t', '\r'] rfl blanks gap⟩

end Formulary
