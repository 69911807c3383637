import Formulary.Proofs.Joining
import Formulary.Proofs.Texts

/-! An index mark behind an indexed letter. Nothing has two indices: the second one is refused, unless a
sum is open whose summand ends there, and then it is the sum that is indexed. -/
namespace Formulary

/-- An index as it is written. -/
def indexText (subscript : List Char) : List Char := '_' :: '{' :: (subscript ++ ['}'])

/-- A sum up to the place of an operand of its summand. -/
def OpensSummand (s : List Char) : Prop :=
  ∃ os cs i lower upper c, Lexes s (os ++ cs) ∧ Reads os (.opening (.summand i lower upper)) ∧
    Reads cs (.chain c)

/-! The lexemes around. -/

theorem Lexes.of_oneLine (newlineFree : '\n' ∉ text) (ok : parseExpression text = .ok e) :
    ∃ ks p, Lexes text ks ∧ Reads ks (.whole p) ∧ p.expr = e := by
  obtain ⟨n, ks, m, p, lexes, read, value⟩ := (parseExpression_ok_iff text e).mp ok
  have none : Lexeme.newline ∉ newlines n ++ ks ++ newlines m := by
    intro member
    obtain ⟨b, scans⟩ := lexes
    exact newlineFree (scans.text_subset member '\n' (.head _))
  obtain rfl : n = 0 := by
    cases n with
    | zero => rfl
    | succ n => exact absurd (by simp [newlines, List.replicate_succ]) none
  obtain rfl : m = 0 := by
    cases m with
    | zero => rfl
    | succ m => exact absurd (by simp [newlines, List.replicate_succ]) none
  exact ⟨ks, p, by simpa [newlines] using lexes, read, value⟩

/-- A text on one line that is read as an expression. -/
structure ExpressionText where
  text : List Char
  value : Expression
  oneLine : '\n' ∉ text
  read : parseExpression text = .ok value

theorem ExpressionText.reads (e : ExpressionText) :
    ∃ ks p, Lexes e.text ks ∧ Reads ks (.whole p) ∧ p.expr = e.value :=
  Lexes.of_oneLine e.oneLine e.read

theorem Lexes.before (lexes : Lexes e ks) (parts : Parts c) (z : List Char) :
    ∃ b, Scans false (e ++ c :: z) ks b (c :: z) := by
  obtain ⟨b, scans⟩ := id lexes
  exact ⟨b, scans.extend fun l last => parts.endsBefore (lexes.last_not_callee l last) z⟩

/-- A whole text with a closing sign behind it. -/
theorem Lexes.closed (lexes : Lexes e ks) (parts : Parts c) (closer : signLexeme? c = some l)
    (z : List Char) : Scans false (e ++ c :: z) (ks ++ [l]) false z := by
  obtain ⟨b, inner⟩ := lexes.before parts z
  obtain ⟨spelt, notIndex, ends⟩ := signLexeme?_spec closer z
  have sign : c :: z = l.text ++ z := by
    rw [text_of_signLexeme? closer]
    rfl
  exact inner.trans (.lexeme spelt ends (absurd · notIndex) sign .done)

theorem Lexes.braced (lexes : Lexes e ks) (z : List Char) :
    Scans false (e ++ '}' :: z) (ks ++ [.rightBrace]) false z :=
  lexes.closed parts_brace rfl z

theorem Lexes.indexText (lexes : Lexes e ks) (z : List Char) :
    Scans false (indexText e ++ z) (.index :: (ks ++ [.rightBrace])) false z := by
  have mark : Formulary.indexText e ++ z = Lexeme.index.text ++ (e ++ '}' :: z) := by
    simp [Formulary.indexText, Lexeme.text]
  exact .lexeme trivial trivial (fun _ => rfl) mark (lexes.braced z)

theorem scans_letter (letter : isLetter a = true) (b : Bool) (e z : List Char) :
    Scans b (a :: (indexText e ++ z)) [.scalar a] false (indexText e ++ z) :=
  .lexeme letter (by simp [Lexeme.EndsBefore]) nofun rfl .done

theorem Symbol.underscore_in_name {s : Symbol} {xs ys : List Char}
    (name : s.name.toList = xs ++ '_' :: ys) : s = .sum := by
  have member : '_' ∈ s.name.toList := by
    rw [name]
    simp
  cases s with
  | sum => rfl
  | vec => exact absurd member (by decide)
  | unary s => exact absurd member (by cases s <;> decide)
  | binary s => exact absurd member (by cases s <;> decide)
  | ternary s => exact absurd member (by cases s <;> decide)

/-- The only lexeme that can take in a letter with an index mark behind it is the word of a sum. -/
theorem Lexeme.reaches_over {l : Lexeme} {x y z after : List Char} (spelt : l.Spelt)
    (ends : l.EndsBefore after) (text : l.text = x ++ y) (front : x ≠ []) (back : y ≠ [])
    (letter : isLetter a = true) (place : a :: '_' :: '{' :: z = y ++ after) :
    l = .symbol .sum ∧ after = '{' :: z := by
  obtain ⟨d, xs, rfl⟩ := List.exists_cons_of_ne_nil front
  obtain ⟨_, ys, rfl⟩ := List.exists_cons_of_ne_nil back
  simp only [List.cons_append, List.cons.injEq] at place
  obtain ⟨rfl, place⟩ := place
  have inside : a ∈ l.text := by
    rw [text]
    simp
  have length := congrArg List.length text
  cases l with
  | number whole fraction =>
    have notDigit := isDigit_of_isLetter letter
    have notPoint : a ≠ '.' := by
      rintro rfl
      cases letter
    have digits := spelt.2 a
    cases fraction with
    | nil => simp_all [Lexeme.text]
    | cons e es =>
      simp only [Lexeme.text, List.mem_append, List.mem_cons, notPoint, false_or] at inside
      rw [digits (by simpa using inside)] at notDigit
      cases notDigit
  | symbol s =>
    simp only [Lexeme.text, List.cons_append, List.cons.injEq] at text
    obtain ⟨-, name⟩ := text
    cases ys with
    | nil =>
      -- The underscore would go on with the word.
      obtain rfl : '_' :: '{' :: z = after := place
      cases ends '_' rfl
    | cons c ys =>
      simp only [List.cons_append, List.cons.injEq] at place
      obtain ⟨rfl, place⟩ := place
      cases ys with
      | nil =>
        have split : s.name.toList = xs ++ [a] ++ '_' :: [] := by simpa using name
        obtain rfl := Symbol.underscore_in_name split
        exact ⟨rfl, place.symm⟩
      | cons c ys =>
        simp only [List.cons_append, List.cons.injEq] at place
        obtain ⟨rfl, -⟩ := place
        cases s.name_chars.2 '{' (by rw [name]; simp)
  | index | endMark =>
    have letters : isLetter '_' = false ∧ isLetter '{' = false ∧ isLetter 'E' = false ∧
      isLetter 'O' = false ∧ isLetter 'F' = false := by decide
    simp [Lexeme.text] at inside
    rcases inside with rfl | rfl | rfl <;> simp_all
  | _ => simp [Lexeme.text] at length

/-! What the reader takes around a second index mark. -/

/-- The site of an operand that is due. -/
def State.DueAt (s : State) (site : Site) : Prop :=
  s = .inside site .operand ∨
    ∃ goal done afterNewline, s = .fresh goal done afterNewline ∧ site = .atStart goal done

theorem State.DueAt.reaches {s t : State} {site : Site} (due : s.DueAt site)
    (run : (State.inside site .operand).Reaches (l :: ls) t) : s.Reaches (l :: ls) t := by
  rcases due with rfl | ⟨goal, done, afterNewline, rfl, rfl⟩
  · exact run
  · cases run with
    | cons step rest => exact .cons (fun offset => feed_first afterNewline (step offset)) rest

theorem StateReads.dueAt {s : State} (held : StateReads goal ls s) (due : s.DueAt site) :
    SiteReads goal site ls := by
  rcases due with rfl | ⟨goal, done, afterNewline, rfl, rfl⟩
  · cases held with
    | inside sited leads =>
      cases leads
      simpa using sited
  · cases held with
    | fresh before => exact ⟨rfl, ls, [], [], by simp, before, .first, .base .chainNil⟩

theorem dueAt_of_letter {s t u : State} (first : s.take offset (.scalar a) = .ok t)
    (second : t.take offset' .index = .ok u) : ∃ site, s.DueAt site := by
  cases s with
  | fresh goal done afterNewline => exact ⟨_, .inr ⟨_, _, _, rfl, rfl⟩⟩
  | inside site focus =>
    cases focus with
    | operand => exact ⟨site, .inl rfl⟩
    | sumName =>
      cases first
      cases second
    | vecName use =>
      cases first
      cases use <;> cases second
    | whole => exact nomatch feedWhole_follows (elim_ok first)
    | vecClose use => cases use <;> cases first
    | _ => cases first
  | ended | sealed => cases first

theorem dueAt_of_paren {s t : State} (taken : s.take offset .leftParen = .ok t) :
    (∃ site, s.DueAt site) ∨ ∃ site f, s = .inside site (.callParen f) := by
  cases s with
  | fresh goal done afterNewline => exact .inl ⟨_, .inr ⟨_, _, _, rfl, rfl⟩⟩
  | inside site focus =>
    cases focus with
    | operand => exact .inl ⟨site, .inl rfl⟩
    | callParen f => exact .inr ⟨site, f, rfl⟩
    | whole => exact nomatch feedWhole_follows (elim_ok taken)
    | vecClose use => cases use <;> cases taken
    | _ => cases taken
  | ended | sealed => cases taken

/-- What is due when the same lexemes are read as an expression and as the name of a sum. -/
inductive Rivals : Focus → Focus → Prop where
  | start : Rivals .operand .sumName
  | vecBrace : Rivals (.vecBrace .variable) (.vecBrace .bound)
  | vecName : Rivals (.vecName .variable) (.vecName .bound)
  | vecClose : Rivals (.vecClose .variable c) (.vecClose .bound c)
  | value : Rivals (.value (.identifier i) .plain) (.sumEquals i)
  | called : Rivals (.callParen f) (.sumEquals (.scalar f))

theorem Rivals.step {focus focus' : Focus} {s t : State} (rivals : Rivals focus focus')
    (fed : (State.inside (.atStart .formula []) focus).feed offset l = .ok s)
    (taken : (State.inside site focus').take offset' l = .ok t) :
    ∃ next next', s = .inside (.atStart .formula []) next ∧ t = .inside site next' ∧
      Rivals next next' := by
  cases rivals with
  | start =>
    cases l with
    | scalar c =>
      cases fed
      cases taken
      exact ⟨_, _, rfl, rfl, .value⟩
    | callee f =>
      cases fed
      cases taken
      exact ⟨_, _, rfl, rfl, .called⟩
    | symbol m =>
      cases m with
      | vec =>
        cases fed
        cases taken
        exact ⟨_, _, rfl, rfl, .vecBrace⟩
      | _ => cases taken
    | _ => cases taken
  | vecBrace =>
    cases l with
    | leftBrace =>
      cases fed
      cases taken
      exact ⟨_, _, rfl, rfl, .vecName⟩
    | _ => cases taken
  | vecName =>
    cases l with
    | scalar c =>
      cases fed
      cases taken
      exact ⟨_, _, rfl, rfl, .vecClose⟩
    | callee f => cases fed
    | _ => cases taken
  | vecClose =>
    cases l with
    | rightBrace =>
      cases fed
      cases taken
      exact ⟨_, _, rfl, rfl, .value⟩
    | _ => cases taken
  | value | called =>
    -- The equals sign behind the name of a sum fits into no expression.
    cases l with
    | equals => exact nomatch fed
    | _ => cases taken

theorem Rivals.run {focus focus' : Focus} {s t : State} (rivals : Rivals focus focus')
    (read : (State.inside (.atStart .formula []) focus).Reaches ks s)
    (complete : ∃ site' q ending, s = .inside site' (.value q ending)) {ps : List Placed}
    (pieces : ps.map (·.piece) = (ks ++ [Lexeme.rightBrace]).map .lexeme)
    (taken : (State.inside site focus').takePieces ps = .ok t) : False := by
  generalize start : State.inside (.atStart .formula []) focus = first at read
  induction read generalizing focus focus' ps with
  | refl =>
    subst start
    obtain ⟨site', q, ending, same⟩ := complete
    cases same
    obtain ⟨u, offset, qs, step, -, -⟩ := takePieces_cons_ok taken pieces
    cases rivals
    cases step
  | cons step rest ih =>
    subst start
    obtain ⟨u, offset, qs, next, tail, last⟩ := takePieces_cons_ok taken pieces
    obtain ⟨focus₁, focus₂, rfl, rfl, further⟩ := rivals.step (step 0) next
    exact ih further complete tail last rfl

/-- No sum has an expression where its name belongs. -/
theorem not_takes_sum_of {s t : State} {ps : List Placed} (read : Reads ks (.whole p))
    (taken : s.takePieces ps = .ok t)
    (pieces : ps.map (·.piece) =
      (Lexeme.symbol .sum :: .leftBrace :: (ks ++ [.rightBrace])).map .lexeme) : False := by
  obtain ⟨s₁, o₁, ps₁, first, pieces₁, taken₁⟩ := takePieces_cons_ok taken pieces
  obtain ⟨site, rfl⟩ := take_sum first
  obtain ⟨s₂, o₂, ps₂, second, pieces₂, taken₂⟩ := takePieces_cons_ok taken₁ pieces₁
  cases second
  obtain ⟨site', q, ending, run, -⟩ := read.run (.atStart .formula []) rfl
  exact Rivals.start.run run ⟨site', q, ending, rfl⟩ pieces₂ taken₂

/-! The second mark, and the sum that it indexes. -/

theorem Reads.summand_head (read : Reads os (.opening (.summand i lower upper))) :
    ∃ ks, os = .symbol .sum :: ks := by
  cases read with
  | summand opening _ =>
    cases opening with
    | bound opening _ =>
      cases opening with
      | start => exact ⟨_, rfl⟩

theorem Reads.summand_last (opening : Reads os (.opening (.summand i lower upper)))
    (chain : Reads cs (.chain c)) (z : List Char) :
    ∀ l ∈ (os ++ cs).getLast?, l.EndsBefore z := by
  cases chain with
  | chainNil =>
    cases opening with
    | summand => simp [Lexeme.EndsBefore]
  | chainSign => simp [← List.append_assoc, Lexeme.EndsBefore]

theorem Lexes.sum_head (lexes : Lexes s (.symbol .sum :: ls)) : ∃ c cs, s = c :: cs ∧ Parts c := by
  obtain ⟨b, scans⟩ := lexes
  cases scans with
  | blank blank => exact ⟨_, _, rfl, parts_of_isBlank blank⟩
  | lexeme _ _ _ text => exact ⟨'\\', _, text, parts_backslash⟩

theorem Reads.indexedLetter (read : Reads ks (.whole p)) : Reads (.scalar a :: .index :: (ks ++ [.rightBrace]))
    (.operand (.index (.identifier (.scalar a)) p) .indexed) := by
  have base : Reads [.scalar a] (.operand (.identifier (.scalar a)) .plain) :=
    Reads.identifier (i := .scalar a)
  simpa using Reads.indexed (base.subscript nofun) read

/-- Put in parentheses, an open sum takes the same index as without. -/
theorem Reads.parenthesisedSum (opening : Reads os (.opening (.summand i lower upper)))
    (chain : Reads cs (.chain c)) (operand : Reads ks (.operand q ending)) :
    Reads (.leftParen :: (os ++ cs ++ ks ++ [.rightParen, .index]))
      (.opening (.subscript (.plain (.sum i lower upper (c.join q).expr)))) := by
  have sum : Reads (os ++ (cs ++ ks)) (.whole (.plain (.sum i lower upper (c.join q).expr))) :=
    .lastSum .chainNil opening (.last chain operand)
  have base := Reads.parenthesised .group sum
  have indexed : Reads _ (.opening (.subscript (.plain (.sum i lower upper (c.join q).expr)))) :=
    base.subscript nofun
  simpa using indexed

/-- A text whose first lexemes open a construct where an operand is due, and whose other lexemes are
taken from there. -/
theorem readStatements_behind {t : State} (held : SiteReads .formula site us)
    (opening : Reads ms (.opening f)) (before : Scans false text (us ++ ms) false rest)
    (after : Scans false rest ns b []) {ps : List Placed}
    (pieces : ps.map (·.piece) = ns.map .lexeme)
    (taken : (State.inside (site.enter f) .operand).takePieces ps = .ok t)
    (finished : t.finish = .ok clauses) (judged : clauses.reverse.mapM Clause.statement = .ok sts) :
    readStatements .formula text = .ok sts := by
  have place : StateReads .formula (us ++ ms) (.inside (site.enter f) .operand) :=
    .place (held.enter opening)
  exact readStatements_from place before after pieces taken finished judged

section

variable {a : Char} {e rest : List Char} {ks : List Lexeme} {p : Phrase}

theorem scans_indexedLetter (letter : isLetter a = true) (lexes : Lexes e ks) (b : Bool)
    (z : List Char) : Scans b (a :: (indexText e ++ z))
      (.scalar a :: .index :: (ks ++ [.rightBrace])) false z :=
  (scans_letter letter b e z).trans (lexes.indexText z)

theorem scans_mark (rest : List Char) : Scans false ('_' :: '{' :: rest) [.index] false rest :=
  .lexeme trivial trivial (fun _ => rfl) rfl .done

theorem scans_parenMark (rest : List Char) :
    Scans false (')' :: '_' :: '{' :: rest) [.rightParen, .index] false rest :=
  .lexeme trivial trivial nofun rfl (scans_mark rest)

theorem OpensSummand.scans (letter : isLetter a = true) (lexes : Lexes e ks)
    (inside : Lexes s (os ++ cs)) (opening : Reads os (.opening (.summand i lower upper)))
    (chain : Reads cs (.chain c)) (b : Bool) (z : List Char) :
    Scans b (s ++ a :: (indexText e ++ z))
      (os ++ cs ++ .scalar a :: .index :: (ks ++ [.rightBrace])) false z := by
  obtain ⟨b₁, scans⟩ := inside
  obtain ⟨us, rfl⟩ := opening.summand_head
  have sum := scans.extend (opening.summand_last chain (a :: (indexText e ++ z)))
  exact (sum.reflag nofun b).trans (scans_indexedLetter letter lexes b₁ z)

/-- The same with parentheses around the sum, up to the second mark. -/
theorem OpensSummand.scansParenthesised (letter : isLetter a = true) (lexes : Lexes e ks)
    (inside : Lexes s (os ++ cs)) (opening : Reads os (.opening (.summand i lower upper)))
    (chain : Reads cs (.chain c)) (b : Bool) (rest : List Char) :
    Scans b (' ' :: '(' :: (s ++ a :: (indexText e ++ ')' :: '_' :: '{' :: rest)))
      (.leftParen :: (os ++ cs ++ .scalar a :: .index :: (ks ++ [.rightBrace]) ++
        [.rightParen, .index])) false rest := by
  have sum := OpensSummand.scans letter lexes inside opening chain false (')' :: '_' :: '{' :: rest)
  have marked := sum.trans (scans_parenMark rest)
  exact .blank rfl (.lexeme trivial trivial nofun rfl marked)

/-- The reader takes the second mark only where a summand ends before it. -/
theorem takes_second_mark {s t : State} {ps : List Placed} (read : Reads ks (.whole p))
    (taken : s.takePieces ps = .ok t)
    (pieces : ps.map (·.piece) =
      (Lexeme.scalar a :: .index :: (ks ++ [Lexeme.rightBrace]) ++ [Lexeme.index]).map .lexeme) :
    ∃ site i lower upper outer frames, s.DueAt site ∧
      site.frames = (.summand i lower upper, outer) :: frames ∧
      t = .inside ((site.leave frames outer).enter (.subscript (.plain (.sum i lower upper
        (Chain.join site.chain (.index (.identifier (.scalar a)) p)).expr)))) .operand := by
  obtain ⟨s₁, o₁, ps₁, first, pieces₁, taken₁⟩ := takePieces_cons_ok taken pieces
  obtain ⟨s₂, o₂, ps₂, second, -, -⟩ := takePieces_cons_ok taken₁ pieces₁
  obtain ⟨site, due⟩ := dueAt_of_letter first second
  obtain ⟨s₃, front, back, frontPieces, backPieces, value, last⟩ := takePieces_split taken pieces
  have indexed := (due.reaches (read.indexedLetter.run site)).takePieces frontPieces
  obtain rfl := Except.ok.inj (value.symm.trans indexed)
  obtain ⟨s₄, o₄, ps₄, mark, pieces₄, taken₄⟩ := takePieces_cons_ok last backPieces
  obtain rfl : ps₄ = [] := by simpa using pieces₄
  cases taken₄
  change feedIndex site _ .indexed = _ at mark
  unfold feedIndex at mark
  split at mark
  · next frames =>
    cases mark
    exact ⟨site, _, _, _, _, _, due, frames, rfl⟩
  · cases mark
  · next notIndexed _ => exact absurd rfl notIndexed

/-- If the text is read, a sum is open before the letter, and the text is also read with parentheses
around the sum. -/
theorem second_mark_parenthesised (letter : isLetter a = true) (lexes : Lexes e ks)
    (read : Reads ks (.whole p))
    (ok : readStatements .formula (u ++ a :: (indexText e ++ '_' :: '{' :: rest)) = .ok sts) :
    ∃ u₀ s, u = u₀ ++ s ∧ OpensSummand s ∧ readStatements .formula
      (u₀ ++ ' ' :: '(' :: (s ++ a :: (indexText e ++ ')' :: '_' :: '{' :: rest))) = .ok sts := by
  obtain ⟨t, clauses, run, finished, judged⟩ := readStatements_run ok
  obtain ⟨ls, pieces⟩ := takePieces_lexemes run
  obtain ⟨b, scans⟩ := (scan_eq_lexemes_iff _ ls).mp pieces
  rcases scans.boundary with ⟨front, back, b₁, rfl, before, after⟩ |
    ⟨front, l, back, x, y, after, rfl, nonempty, reaches, spelt, text, place, ends, behind⟩
  · have notCalled : (a :: (indexText e ++ '_' :: '{' :: rest)).head? ≠ some '(' := by
      intro same
      obtain rfl := Option.some.inj same
      cases letter
    have indexed := scans_indexedLetter letter lexes b₁ ('_' :: '{' :: rest)
    obtain ⟨ns, rfl, b₂, last⟩ := (indexed.trans (scans_mark rest)).rest after
    have alone := before.alone notCalled
    obtain ⟨s₁, ps₁, ps₂, pieces₁, pieces₂, run₁, run₂⟩ := takePieces_split run pieces
    obtain ⟨s₂, ps₃, ps₄, pieces₃, pieces₄, run₃, run₄⟩ := takePieces_split run₂ pieces₂
    obtain ⟨site, i, lower, upper, outer, frames, due, inner, rfl⟩ :=
      takes_second_mark read run₃ pieces₃
    have held := (takePieces_reads (stateReads_start .formula) alone pieces₁ run₁).dueAt due
    obtain ⟨us, os, cs, split, around, opening, chain⟩ := held.interrupt inner
    obtain rfl : front = us ++ (os ++ cs) := by simpa using split
    obtain ⟨b₃, s, outside, inside⟩ := alone.cut
    obtain ⟨u₀, rfl⟩ := outside.suffix
    obtain ⟨ms, rfl⟩ := opening.summand_head
    have inner : Lexes s (.symbol .sum :: ms ++ cs) := ⟨b₁, inside.reflag nofun false⟩
    obtain ⟨d, ds, rfl, parts⟩ := inner.sum_head
    have alone₀ := outside.alone (by simpa using parts.2.2.2)
    have blank : Parts ' ' := parts_of_isBlank rfl
    have outer : Lexes u₀ us := ⟨b₃, alone₀⟩
    have prefixed := alone₀.extend fun l last => blank.endsBefore (outer.last_not_callee l last)
      ('(' :: (d :: ds ++ a :: (indexText e ++ ')' :: '_' :: '{' :: rest)))
    have whole := prefixed.trans
      (OpensSummand.scansParenthesised letter lexes inner opening chain b₃ rest)
    refine ⟨u₀, d :: ds, rfl, ⟨_, cs, i, lower, upper, _, inner, opening, chain⟩, ?_⟩
    exact readStatements_behind around (opening.parenthesisedSum chain read.indexedLetter)
      (by simpa using whole) last pieces₄ run₄ finished judged
  · have split : a :: (indexText e ++ '_' :: '{' :: rest) =
        a :: '_' :: '{' :: (e ++ '}' :: '_' :: '{' :: rest) := by simp [indexText]
    obtain ⟨rfl, rfl⟩ :=
      Lexeme.reaches_over spelt ends text nonempty reaches letter (split.symm.trans place)
    have inner : Scans false ('{' :: (e ++ '}' :: '_' :: '{' :: rest))
        (.leftBrace :: (ks ++ [.rightBrace])) false ('_' :: '{' :: rest) :=
      .lexeme trivial trivial nofun rfl (lexes.braced _)
    obtain ⟨ns, rfl, -⟩ := inner.rest behind
    have named : front ++ .symbol .sum :: (.leftBrace :: (ks ++ [.rightBrace]) ++ ns) =
        front ++ (.symbol .sum :: .leftBrace :: (ks ++ [.rightBrace])) ++ ns := by simp
    rw [named] at pieces
    obtain ⟨s, s', qs, found, taken⟩ := takePieces_mid run pieces
    exact (not_takes_sum_of read taken found).elim

/-- If the text with the parentheses is read, the one without them is read in the same way. -/
theorem second_mark_bare (letter : isLetter a = true) (lexes : Lexes e ks)
    (read : Reads ks (.whole p)) (sum : OpensSummand s)
    (ok : readStatements .formula
      (u₀ ++ ' ' :: '(' :: (s ++ a :: (indexText e ++ ')' :: '_' :: '{' :: rest))) = .ok sts) :
    readStatements .formula (u₀ ++ s ++ a :: (indexText e ++ '_' :: '{' :: rest)) = .ok sts := by
  obtain ⟨os, cs, i, lower, upper, c, inner, opening, chain⟩ := sum
  obtain ⟨t, clauses, run, finished, judged⟩ := readStatements_run ok
  obtain ⟨ls, pieces⟩ := takePieces_lexemes run
  obtain ⟨b, scans⟩ := (scan_eq_lexemes_iff _ ls).mp pieces
  rcases scans.boundary with ⟨us, back, b₁, rfl, before, after⟩ |
    ⟨front, l, back, x, y, after, rfl, nonempty, reaches, spelt, text, place, ends, behind⟩
  · have blank : Parts ' ' := parts_of_isBlank rfl
    have alone := before.alone (by simp)
    have outer : Lexes u₀ us := ⟨b₁, alone⟩
    -- With the parentheses, up to the second mark.
    have marked := OpensSummand.scansParenthesised letter lexes inner opening chain b₁ rest
    obtain ⟨ns, rfl, b₂, last⟩ := marked.rest after
    obtain ⟨s₁, ps₁, ps₂, pieces₁, pieces₂, run₁, run₂⟩ := takePieces_split run pieces
    obtain ⟨s₂, ps₃, ps₄, pieces₃, pieces₄, run₃, run₄⟩ := takePieces_split run₂ pieces₂
    have held := takePieces_reads (stateReads_start .formula) alone pieces₁ run₁
    obtain ⟨s₃, o₃, ps₅, open?, -, -⟩ := takePieces_cons_ok run₃ pieces₃
    rcases dueAt_of_paren open? with ⟨site, due⟩ | ⟨site, f, rfl⟩
    · have grouped := opening.parenthesisedSum chain (read.indexedLetter (a := a))
      have value := (due.reaches (grouped.run site)).takePieces (by simpa using pieces₃)
      obtain rfl := Except.ok.inj (run₃.symm.trans value)
      -- Without them.
      have bare := OpensSummand.scans letter lexes inner opening chain b₁ ('_' :: '{' :: rest)
      obtain ⟨us', rfl⟩ := opening.summand_head
      obtain ⟨d, ds, rfl, parts⟩ := inner.sum_head
      have front := alone.extend fun l last => parts.endsBefore (outer.last_not_callee l last)
        (ds ++ a :: (indexText e ++ '_' :: '{' :: rest))
      have whole := front.trans (bare.trans (scans_mark rest))
      exact readStatements_behind (held.dueAt due)
        (.sumSubscript opening chain (read.indexedLetter (a := a))) (by simpa using whole) last
        pieces₄ run₄ finished judged
    · -- The blank keeps the parenthesis from making a call of what stands before it.
      generalize same : [] ++ us = ws at held
      cases held with
      | inside _ leads =>
        cases leads
        obtain rfl : us = _ := same
        exact absurd rfl (outer.last_not_callee _ (by simp) f)
  · obtain ⟨_, ys, rfl⟩ := List.exists_cons_of_ne_nil reaches
    simp only [List.cons_append, List.cons.injEq] at place
    obtain ⟨rfl, -⟩ := place
    cases Lexeme.isBlank_of_mem_text spelt (c := ' ') (by simp [text])

end

/-- An indexed letter takes a second index in no context. Where the text is read at all, the letter ends
the summand of an open sum, and the sum is what the second index is read for, as if it stood in
parentheses. -/
theorem second_index_iff (letter : isLetter a = true) (oneLine : '\n' ∉ e₁)
    (subscript : ∃ x, parseExpression e₁ = .ok x) (u e₂ v : List Char) (r : Expression) :
    parseExpression (u ++ a :: (indexText e₁ ++ indexText e₂ ++ v)) = .ok r ↔
      ∃ u₀ s, u = u₀ ++ s ∧ OpensSummand s ∧ parseExpression
        (u₀ ++ ' ' :: '(' :: (s ++ a :: (indexText e₁ ++ ')' :: (indexText e₂ ++ v)))) = .ok r := by
  obtain ⟨x, ok⟩ := subscript
  obtain ⟨ks, p, lexes, read, -⟩ := Lexes.of_oneLine oneLine ok
  simp only [parseExpression_eq_ok_iff]
  rw [List.append_assoc (indexText e₁)]
  constructor
  · exact second_mark_parenthesised letter lexes read
  · rintro ⟨u₀, s, rfl, sum, ok⟩
    exact second_mark_bare letter lexes read sum ok

/-- The sum from one to `n`, up to its summand. -/
def sumHeader : List Char :=
  ['\\', 's', 'u', 'm', '_', '{', 'i', '=', '1', '}', '^', '{', 'n', '}']

/-- The sum that `sumHeader` opens, with an indexed letter as its summand, and an index of its own. -/
def indexedSum : Expression :=
  .index (.sum (.scalar 'i') (.number (numberValue ['1'] [])) (.variable (.scalar 'n'))
    (.index (.variable (.scalar 'a')) (.variable (.scalar 'i')))) (.variable (.scalar 'j'))

theorem second_index_of_sum : ∃ u₀ s, sumHeader = u₀ ++ s ∧ OpensSummand s ∧ parseExpression
    (u₀ ++ ' ' :: '(' :: (s ++ 'a' :: (indexText ['i'] ++ ')' :: (indexText ['j'] ++ [])))) =
      .ok indexedSum :=
  (second_index_iff rfl (by decide) ⟨_, rfl⟩ sumHeader ['j'] [] _).mp rfl

/-- Not every second index is refused. -/
theorem second_index_accepted : ¬ ∀ (u v e₁ e₂ : List Char) (a : Char), isLetter a = true →
    '\n' ∉ e₁ → '\n' ∉ e₂ → (∃ x, parseExpression e₁ = .ok x) →
      (∃ y, parseExpression e₂ = .ok y) →
        ∃ rejection, parseExpression (u ++ a :: (indexText e₁ ++ indexText e₂ ++ v)) =
          .error rejection := by
  intro claim
  obtain ⟨rejection, refused⟩ :=
    claim sumHeader [] ['i'] ['j'] 'a' rfl (by decide) (by decide) ⟨_, rfl⟩ ⟨_, rfl⟩
  have accepted : parseExpression (sumHeader ++ 'a' :: (indexText ['i'] ++ indexText ['j'] ++ [])) =
      .ok indexedSum := rfl
  cases accepted.symm.trans refused

end Formulary
