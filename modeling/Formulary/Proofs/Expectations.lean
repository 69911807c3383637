import Formulary.Proofs.Answers
import Formulary.Proofs.Completions
import Formulary.Proofs.Language
import Mathlib.Computability.Language

/-! What could have stood in the place of a token that does not fit. Every terminal that a state takes
goes on to a word of the grammar, whether the state is the one in which the last token was taken or one
in which the sign that does not fit has completed the expression before it. -/
namespace Formulary

open scoped Computability

/-! The words of each goal. -/

def statementLanguage : Language Terminal :=
  expressionGrammar.language +
    expressionGrammar.language * {[.equals]} * expressionGrammar.language

/-- Statements, each with a newline or more behind it. -/
def linesLanguage : Language Terminal :=
  {[.newline]}∗ * (statementLanguage * ({[.newline]} * {[.newline]}∗))∗

/-- The words of the grammar that a text is read as. -/
def Goal.language : Goal → Language Terminal
  | .formula => {[.newline]}∗ * expressionGrammar.language * {[.newline]}∗
  | .line => {[.newline]}∗ * statementLanguage * {[.newline]}∗
  | .sheet => linesLanguage * {[.endMark]}

variable {goal : Goal} {ls ks us : List Lexeme} {s t : State}

theorem append_mem_kstar {L : Language Terminal} {u v : List Terminal} (star : u ∈ L∗) (last : v ∈ L) :
    u ++ v ∈ L∗ := by
  obtain ⟨words, rfl, members⟩ := Language.mem_kstar.mp star
  refine Language.mem_kstar.mpr ⟨words ++ [v], by simp, ?_⟩
  exact List.forall_mem_append.mpr ⟨members, List.forall_mem_singleton.mpr last⟩

theorem newlines_mem (n : Nat) : (newlines n).map Lexeme.terminal ∈ ({[.newline]} : Language Terminal)∗ := by
  induction n with
  | zero => exact Language.nil_mem_kstar _
  | succ n ih =>
    rw [newlines, List.replicate_succ', List.map_append]
    exact append_mem_kstar ih rfl

theorem ReadsClause.mem_language (clause : ReadsClause goal ls c) :
    ls.map Lexeme.terminal ∈ statementLanguage := by
  cases clause with
  | expression whole => exact .inl whole.derives
  | declaration declares head body =>
    right
    rw [List.map_append, List.map_append]
    exact Language.append_mem_mul (Language.append_mem_mul head.derives rfl) body.derives

theorem linesLanguage_newline {word : List Terminal} (member : word ∈ linesLanguage) :
    word ++ [.newline] ∈ linesLanguage := by
  obtain ⟨a, before, b, ⟨groups, rfl, statements⟩, rfl⟩ := Language.mem_mul.mp member
  rcases List.eq_nil_or_concat groups with rfl | ⟨front, last, rfl⟩
  · have more : a ++ [.newline] ∈ ({[.newline]} : Language Terminal)∗ := append_mem_kstar before rfl
    simpa [linesLanguage] using Language.append_mem_mul more (Language.nil_mem_kstar _)
  · rw [List.concat_eq_append] at statements ⊢
    obtain ⟨x, statement, y, tail, rfl⟩ := Language.mem_mul.mp (statements last (by simp))
    obtain ⟨n, one, m, others, rfl⟩ := Language.mem_mul.mp tail
    have grown : x ++ (n ++ (m ++ [.newline])) ∈
        statementLanguage * ({[.newline]} * {[.newline]}∗) :=
      Language.append_mem_mul statement (Language.append_mem_mul one (append_mem_kstar others rfl))
    have groups : front.flatten ++ (x ++ (n ++ (m ++ [.newline]))) ∈
        (statementLanguage * ({[.newline]} * {[.newline]}∗))∗ :=
      append_mem_kstar (Language.join_mem_kstar fun y found => statements y (by simp [found])) grown
    simpa [linesLanguage] using Language.append_mem_mul before groups

theorem ReadsDone.mem_language (done : ReadsDone .sheet clauses ls) :
    ls.map Lexeme.terminal ∈ linesLanguage := by
  generalize sheet : Goal.sheet = goal at done
  induction done with
  | start => exact Language.append_mem_mul (Language.nil_mem_kstar _) (Language.nil_mem_kstar _)
  | newline _ ih =>
    rw [List.map_append]
    exact linesLanguage_newline (ih sheet)
  | @clause done ls ks c _ clause ih =>
    obtain ⟨a, before, b, groups, same⟩ := Language.mem_mul.mp (ih rfl)
    have group : ks.map Lexeme.terminal ++ ([Lexeme.newline.terminal] ++ []) ∈
        statementLanguage * ({[.newline]} * {[.newline]}∗) :=
      Language.append_mem_mul clause.mem_language
        (Language.append_mem_mul rfl (Language.nil_mem_kstar _))
    have all := Language.append_mem_mul before (append_mem_kstar groups group)
    simpa [linesLanguage, ← same] using all

/-- What the rules read as a text is a word of its goal. -/
theorem ReadsClauses.mem_language (read : ReadsClauses goal ls clauses) :
    ls.map Lexeme.terminal ∈ goal.language := by
  cases read with
  | @single _ ks c n m single clause =>
    rw [List.map_append, List.map_append]
    have around : ∀ L : Language Terminal, ks.map Lexeme.terminal ∈ L →
        (newlines n).map Lexeme.terminal ++ ks.map Lexeme.terminal ++
          (newlines m).map Lexeme.terminal ∈ {[.newline]}∗ * L * {[.newline]}∗ := by
      intro L member
      exact Language.append_mem_mul (Language.append_mem_mul (newlines_mem n) member) (newlines_mem m)
    cases goal with
    | sheet => exact absurd rfl single
    | line => exact around _ clause.mem_language
    | formula =>
      obtain ⟨p, whole⟩ := clause.formula
      exact around _ whole.derives
  | sheet done =>
    rw [List.map_append]
    exact Language.append_mem_mul done.mem_language rfl

/-! Letters that are read as names. -/

/-- The lexemes are fed one by one, each at some offset. -/
inductive State.Feeds : State → List Lexeme → State → Prop where
  | refl (s : State) : Feeds s [] s
  | cons {s t u : State} {offset : Nat} {l : Lexeme} {row : List Lexeme} :
      s.feed offset l = .ok t → Feeds t row u → Feeds s (l :: row) u

theorem State.Feeds.trans {s t u : State} (first : s.Feeds ls t) (last : t.Feeds ks u) :
    s.Feeds (ls ++ ks) u := by
  induction first with
  | refl => exact last
  | cons step _ ih => exact .cons step (ih last)

theorem State.Feeds.reads (feeds : s.Feeds ls t) (held : StateReads goal ks s) :
    StateReads goal (ks ++ ls) t := by
  induction feeds generalizing ks with
  | refl => simpa using held
  | cons step _ ih => simpa using ih (feed_reads held step)

theorem State.Feeds.reads_start (feeds : (State.start goal).Feeds ls s) : StateReads goal ls s :=
  feeds.reads (stateReads_start goal)

theorem StateReads.mark (held : StateReads goal ls s) (name : s.wantsName = true) :
    ∃ us l, (l = .symbol .vec ∨ l = .symbol .sum) ∧ ls = us ++ [l, .leftBrace] := by
  cases held with
  | fresh | ended | sealed => cases name
  | @inside site ws fs focus held leads =>
    cases focus with
    | vecName use =>
      rcases use with _ | _
      · cases leads
        exact ⟨ws, _, .inl rfl, rfl⟩
      · cases leads
        exact ⟨ws ++ [.symbol .sum, .leftBrace], _, .inl rfl, by simp⟩
    | sumName =>
      cases leads
      exact ⟨ws, _, .inr rfl, rfl⟩
    | _ => cases name

/-- No mark before a name reaches over the border between two rows of lexemes. -/
structure Apart (ks ls : List Lexeme) : Prop where
  named : ∀ us l c vs, l = .symbol .vec ∨ l = .symbol .sum → ks = us ++ [l, .leftBrace] →
    ls ≠ .callee c :: vs
  opened : ∀ us l c vs, l = .symbol .vec ∨ l = .symbol .sum → ks = us ++ [l] →
    ls ≠ .leftBrace :: .callee c :: vs

theorem Apart.nil (ls : List Lexeme) : Apart [] ls := by
  constructor
  · intro us l c vs _ same
    simp at same
  · intro us l c vs _ same
    simp at same

theorem Apart.scalar (ks ls : List Lexeme) (c : Char) : Apart (ks ++ [.scalar c]) ls := by
  constructor
  · intro us l d vs _ same
    have last := congrArg List.getLast? same
    simp at last
  · intro us l d vs mark same
    have last := congrArg List.getLast? same
    rcases mark with rfl | rfl <;> simp at last

theorem Apart.step {l : Lexeme} (apart : Apart ks (l :: ls))
    (unmarked : ∀ c vs, l = .symbol .vec ∨ l = .symbol .sum → ls ≠ .leftBrace :: .callee c :: vs) :
    Apart (ks ++ [l]) ls := by
  constructor
  · rintro us k c vs mark same rfl
    have split : ks = us ++ [k] ∧ [l] = [.leftBrace] :=
      List.append_inj' (same.trans (List.append_cons us k [.leftBrace])) rfl
    exact apart.opened us k c vs mark split.1 (by simpa using split.2)
  · rintro us k c vs mark same
    obtain ⟨-, last⟩ := List.append_inj' same rfl
    obtain rfl : l = k := by simpa using last
    exact unmarked c vs mark

/-- The letter behind the brace of a vector or a sum is read as a name. -/
theorem takePieces_marked {l : Lexeme} {ps : List Placed}
    (mark : l = .symbol .vec ∨ l = .symbol .sum) (taken : s.takePieces ps = .ok t)
    (pieces : ps.map (·.piece) = (l :: .leftBrace :: .callee c :: ls).map .lexeme) :
    ∃ (u : State) (qs : List Placed), s.Feeds [l, .leftBrace, .scalar c] u ∧
      qs.map (·.piece) = ls.map .lexeme ∧ u.takePieces qs = .ok t := by
  obtain ⟨s₁, o₁, ps₁, first, pieces₁, taken₁⟩ := takePieces_cons_ok taken pieces
  obtain ⟨s₂, o₂, ps₂, second, pieces₂, taken₂⟩ := takePieces_cons_ok taken₁ pieces₁
  obtain ⟨s₃, o₃, ps₃, third, pieces₃, taken₃⟩ := takePieces_cons_ok taken₂ pieces₂
  have notCallee : ∀ f, l ≠ .callee f := by
    rintro f rfl
    rcases mark with same | same <;> cases same
  rw [State.take, wantsName_of_mark mark first second, if_pos rfl] at third
  have step := feed_of_take first fun f same => absurd same (notCallee f)
  exact ⟨s₃, ps₃, .cons step (.cons second (.cons third (.refl s₃))), pieces₃, taken₃⟩

/-- Lexemes that are taken are fed, each in the sense that fits. -/
theorem takePieces_names {ps : List Placed} (held : StateReads goal ks s) (apart : Apart ks ls)
    (taken : s.takePieces ps = .ok t) (pieces : ps.map (·.piece) = ls.map .lexeme) :
    s.Feeds (asNames ls) t := by
  fun_induction asNames ls generalizing ks s ps with
  | case1 c ls ih =>
    obtain ⟨u, qs, feeds, pieces', taken'⟩ := takePieces_marked (.inl rfl) taken pieces
    have later := Apart.scalar (ks ++ [.symbol .vec, .leftBrace]) ls c
    rw [List.append_assoc] at later
    exact feeds.trans (ih (feeds.reads held) later taken' pieces')
  | case2 c ls ih =>
    obtain ⟨u, qs, feeds, pieces', taken'⟩ := takePieces_marked (.inr rfl) taken pieces
    have later := Apart.scalar (ks ++ [.symbol .sum, .leftBrace]) ls c
    rw [List.append_assoc] at later
    exact feeds.trans (ih (feeds.reads held) later taken' pieces')
  | case3 l ls notVec notSum ih =>
    obtain ⟨u, offset, qs, first, pieces', taken'⟩ := takePieces_cons_ok taken pieces
    have letter : ∀ f, l = .callee f → s.wantsName = false := by
      rintro f rfl
      cases name : s.wantsName with
      | false => rfl
      | true =>
        obtain ⟨us, k, mark, same⟩ := held.mark name
        exact absurd rfl (apart.named us k f ls mark same)
    have later : Apart (ks ++ [l]) ls := by
      apply apart.step
      rintro c vs (rfl | rfl) same
      · exact notVec c vs rfl same
      · exact notSum c vs rfl same
    have step := feed_of_take first letter
    exact .cons step (ih (feed_reads held step) later taken' pieces')
  | case4 =>
    obtain rfl : ps = [] := by simpa using pieces
    cases taken
    exact .refl _

/-- Whatever is taken from the start of a text is fed from there. -/
theorem takePieces_feeds {ps : List Placed} (taken : (State.start goal).takePieces ps = .ok t)
    (pieces : ps.map (·.piece) = ls.map .lexeme) : (State.start goal).Feeds (asNames ls) t :=
  takePieces_names (stateReads_start goal) (Apart.nil _) taken pieces

/-! States that refuse. -/

/-- What has been read where a state refuses. A sign that does not fit behind an expression has ended it
and all summands around it. -/
inductive Awaits (goal : Goal) : List Lexeme → State → Prop where
  | held : StateReads goal ws state → Awaits goal ws state
  | closing : SiteReads goal site ws → site.chain = [] →
      (∀ i a b outer rest, site.frames ≠ (.summand i a b, outer) :: rest) →
      Reads vs (.whole p) → Awaits goal (ws ++ vs) (.inside site (.whole p))

theorem SiteReads.closing (held : SiteReads goal site ls) (read : Reads ks (.operand p ending)) :
    Awaits goal (ls ++ ks) (.inside (site.settle p).1 (.whole (site.settle p).2)) := by
  obtain ⟨us, vs, split, settled, whole⟩ := held.settle read
  rw [split]
  exact .closing settled rfl (Site.settleFrames_closed _ _ _) whole

theorem elim_error {fed : Option State} {refused s : State}
    (stopped : fed.elim (.error refused) .ok = Except.error s) : s = refused := by
  cases fed with
  | none =>
    cases stopped
    rfl
  | some _ => cases stopped

theorem feedSettled_refused (held : SiteReads goal site ls) (read : Reads ks (.operand p ending))
    (refused : feedSettled site p offset l = .error s) : Awaits goal (ls ++ ks) s := by
  unfold feedSettled at refused
  dsimp only at refused
  split at refused
  · cases refused
  · cases refused
    exact held.closing read

theorem feedIndex_refused (held : SiteReads goal site ls) (read : Reads ks (.operand p ending))
    (refused : feedIndex site p ending = .error s) : Awaits goal (ls ++ ks) s := by
  unfold feedIndex at refused
  split at refused
  · cases refused
  · cases refused
    exact held.closing read
  · cases refused

theorem feedInside_refused (held : SiteReads goal site ls) (leads : Leads ks focus)
    (refused : feedInside site focus offset l = .error s) : Awaits goal (ls ++ ks) s := by
  have same : Awaits goal (ls ++ ks) (.inside site focus) := .held (.inside held leads)
  unfold feedInside at refused
  split at refused
  · rw [elim_error refused]
    exact same
  · cases refused
  · exact feedIndex_refused held leads refused
  · split at refused
    · exact feedSettled_refused held leads refused
    · cases refused
      exact same
  · exact leads.elim
  all_goals
    cases refused
    try exact same

theorem StateReads.refused (held : StateReads goal ls s) (refused : s.feed offset l = .error s') :
    Awaits goal ls s' := by
  cases held with
  | fresh before =>
    unfold State.feed at refused
    split at refused
    · cases refused
    · cases refused
    · next fresh _ _ =>
      cases fresh
      rw [elim_error refused]
      exact .held (.fresh before)
    all_goals contradiction
  | inside site leads => exact feedInside_refused site leads refused
  | ended single before clause =>
    cases l with
    | newline => cases refused
    | _ =>
      cases refused
      exact .held (.ended single before clause)
  | sealed sheet before =>
    cases refused
    exact .held (.sealed sheet before)

theorem StateReads.unfinished (held : StateReads goal ls s) (early : s.finish = .error s') :
    Awaits goal ls s' := by
  cases s with
  | ended | sealed => cases early
  | fresh =>
    cases early
    exact .held held
  | inside site focus =>
    cases held with
    | inside sited leads =>
      cases focus with
      | value p ending =>
        simp only [State.finish] at early
        split at early
        · cases early
        · cases early
          exact sited.closing leads
      | whole => exact leads.elim
      | _ =>
        cases early
        exact .held (.inside sited leads)

/-! What they take. -/

theorem Awaits.feed (awaits : Awaits goal ls s) (taken : s.feed offset l = .ok t) :
    StateReads goal (ls ++ [l]) t := by
  cases awaits with
  | held held => exact feed_reads held taken
  | closing site fresh _ whole => exact feedWhole_reads site fresh whole (elim_ok taken)

theorem Awaits.finish (awaits : Awaits goal ls s) (finished : s.finish = .ok clauses) :
    ReadsClauses goal ls clauses := by
  cases awaits with
  | held held => exact held.finish finished
  | closing site fresh _ whole =>
    simp only [State.finish] at finished
    split at finished
    · next final =>
      simp only [Bool.and_eq_true, decide_eq_true_eq, List.isEmpty_iff] at final
      cases finished
      exact site.atEnd final.1 fresh final.2 whole
    · cases finished

theorem feed_endMark (taken : s.feed offset .endMark = .ok t) : ∃ done, t = .sealed done := by
  cases s with
  | fresh goal done afterNewline =>
    cases goal with
    | sheet =>
      cases taken
      exact ⟨done, rfl⟩
    | line | formula => cases taken
  | inside site focus =>
    cases focus with
    | whole p => exact nomatch feedWhole_follows (elim_ok taken)
    | vecClose use => cases use <;> cases taken
    | _ => cases taken
  | ended | sealed => cases taken

/-- A word can go on with a terminal. An end is allowed if the word is complete with it. -/
def Goal.Allows (goal : Goal) (word : List Terminal) : Terminal → Prop
  | .endOfText => word ∈ goal.language
  | .endMark => word ++ [.endMark] ∈ goal.language
  | t => ∃ rest, word ++ t :: rest ∈ goal.language

theorem exists_of_isOk {ε α : Type} {x : Except ε α} (ok : x.isOk = true) : ∃ a, x = .ok a := by
  cases x with
  | ok a => exact ⟨a, rfl⟩
  | error => cases ok

theorem Terminal.terminal_of_sample {t : Terminal} (sample : t.sample = some l) : l.terminal = t := by
  cases t <;> cases sample <;> rfl

/-- Every terminal that a state takes goes on to a word of the goal. -/
theorem Awaits.allows {t : Terminal} (awaits : Awaits goal ls s) (accepted : s.accepts t = true) :
    goal.Allows (ls.map Lexeme.terminal) t := by
  have go : ∀ l, t.sample = some l → (s.feed 0 l).isOk = true →
      ∃ rest, ls.map Lexeme.terminal ++ t :: rest ∈ goal.language := by
    intro l sample fed
    obtain ⟨u, taken⟩ := exists_of_isOk fed
    obtain ⟨us, -, clauses, read⟩ := (awaits.feed taken).complete
    have word := read.mem_language
    refine ⟨us.map Lexeme.terminal, ?_⟩
    simpa [Terminal.terminal_of_sample sample] using word
  cases t with
  | endOfText =>
    obtain ⟨clauses, finished⟩ := exists_of_isOk accepted
    exact (awaits.finish finished).mem_language
  | endMark =>
    obtain ⟨u, taken⟩ := exists_of_isOk accepted
    obtain ⟨done, rfl⟩ := feed_endMark taken
    have read := (awaits.feed taken).finish rfl
    have word := read.mem_language
    rw [List.map_append] at word
    exact word
  | control | other => cases accepted
  | _ => exact go _ rfl accepted

/-- Every state takes something. -/
theorem Awaits.accepts_some (awaits : Awaits goal ls s) :
    ∃ t ∈ Terminal.grammar, s.accepts t = true := by
  cases awaits with
  | held held =>
    cases held with
    | fresh => exact ⟨.number, by decide, rfl⟩
    | ended => exact ⟨.newline, by decide, rfl⟩
    | sealed => exact ⟨.endOfText, by decide, rfl⟩
    | @inside _ _ _ focus _ leads =>
      cases focus with
      | operand => exact ⟨.number, by decide, rfl⟩
      | value => exact ⟨.sign .plus, by decide, rfl⟩
      | whole => exact leads.elim
      | callParen => exact ⟨.leftParen, by decide, rfl⟩
      | vecName | sumName => exact ⟨.scalar, by decide, rfl⟩
      | vecClose use => cases use <;> exact ⟨.rightBrace, by decide, rfl⟩
      | sumEquals => exact ⟨.equals, by decide, rfl⟩
      | sumCaret => exact ⟨.sign .power, by decide, rfl⟩
      | vecBrace | operandBrace | sumBrace | sumBound => exact ⟨.leftBrace, by decide, rfl⟩
  | @closing site _ _ p _ _ closed _ =>
    obtain ⟨goal', done, root, frames, chain⟩ := site
    cases frames with
    | nil =>
      refine ⟨.newline, by decide, ?_⟩
      cases goal' <;> rfl
    | cons top frames =>
      obtain ⟨frame, outer⟩ := top
      cases frame with
      | summand i a b => exact absurd rfl (closed i a b outer frames)
      | group | second | later | argument => exact ⟨.rightParen, by decide, rfl⟩
      | subscript | start | bound => exact ⟨.rightBrace, by decide, rfl⟩
      | operand a => exact ⟨.rightBrace, by decide, by cases a <;> rfl⟩

/-! Reports. -/

theorem expectation_expected (s : State) :
    Terminal.expectation s.expected = Terminal.describe s.expected := by
  have words : ∀ t ∈ Terminal.grammar, decide (t ≠ .control) = true := by decide
  have wanted : s.expected.filter (· ≠ .control) = s.expected :=
    List.filter_eq_self.mpr fun t member => words t (List.mem_of_mem_filter member)
  simp only [Terminal.expectation, wanted, ite_self]

theorem description_ne_control : ∀ t ∈ Terminal.grammar, t.description ≠ "control sequence" := by
  decide

theorem StateReads.take_refused (held : StateReads goal ls s)
    (refused : s.take offset l = .error s') : Awaits goal ls s' := by
  unfold State.take at refused
  split at refused
  · exact held.refused refused
  · exact held.refused refused

/-- The lexemes of a text before the token that does not fit, or all of them if the text ends too early. -/
inductive ReadBefore (goal : Goal) (text : List Char) (r : Rejection) : List Lexeme → Prop where
  | token : scan (goal.source text) = before ++ ⟨.lexeme l, r.position⟩ :: after →
      before.map (·.piece) = ws.map .lexeme →
      r.cause = .unexpected l.terminal (String.ofList l.text) → ReadBefore goal text r ws
  | tooEarly : (scan (goal.source text)).map (·.piece) = ws.map .lexeme →
      r.cause = .unexpected .endOfText "" → ReadBefore goal text r ws

/-- A token is refused in a state to which the lexemes before it lead. -/
theorem Refuses.awaits {text : List Char} {terminal : Terminal} (refused : Refuses goal text r)
    (token : r.cause = .unexpected terminal word) : ∃ ls s, ReadBefore goal text r ls ∧
      Awaits goal (asNames ls) s ∧ r.expected = s.expected := by
  have misread : r.cause ≠ .invalidTarget := by
    rw [token]
    nofun
  have read := readClauses_of_misread ((refuses_iff goal text r).mp refused) misread
  have held : ∀ {ps ls u}, (State.start goal).takePieces ps = .ok u →
      ps.map (·.piece) = ls.map .lexeme → StateReads goal (asNames ls) u :=
    fun taken lexemes => (takePieces_feeds taken lexemes).reads_start
  rcases readClauses_stop read with ⟨before, p, after, u, pieces, taken, fault⟩ | ⟨u, s, taken, early, rfl⟩
  · obtain ⟨ls, lexemes⟩ := takePieces_lexemes taken
    obtain ⟨piece, start⟩ := p
    cases piece with
    | unknown w | stray c =>
      cases fault
      cases token
    | lexeme l =>
      obtain ⟨s, answer, rfl⟩ := mapError_eq_error.mp fault
      exact ⟨ls, s, .token pieces lexemes rfl, (held taken lexemes).take_refused answer, rfl⟩
  · obtain ⟨ls, lexemes⟩ := takePieces_lexemes taken
    exact ⟨ls, s, .tooEarly lexemes rfl, (held taken lexemes).unfinished early, rfl⟩

/-- What is reported to be expected in the place of a token could have stood there: whatever is named,
the lexemes before can go on with it to a word of the grammar. -/
theorem expected_terminals_fit (goal : Goal) (text : List Char) (r : Rejection) (t : Terminal)
    (word : String) (refused : Refuses goal text r) (token : r.cause = .unexpected t word) :
    (r.report text).expected ≠ [] ∧ (r.report text).expected.Pairwise (· < ·) ∧
      "control sequence" ∉ (r.report text).expected ∧
      ∃ ls, ReadBefore goal text r ls ∧ ∀ d ∈ (r.report text).expected,
        ∃ t : Terminal, t.description = d ∧
          goal.Allows ((asNames ls).map Lexeme.terminal) t := by
  obtain ⟨ls, s, before, awaits, expected⟩ := refused.awaits token
  have report : (r.report text).expected = Terminal.describe s.expected := by
    rw [← expectation_expected, ← expected]
    rfl
  rw [report]
  refine ⟨?_, Terminal.describe_pairwise _, ?_, ls, before, ?_⟩
  · obtain ⟨u, member, accepted⟩ := awaits.accepts_some
    intro none
    have named : u.description ∈ Terminal.describe s.expected :=
      (Terminal.mem_describe _ _).mpr ⟨u, List.mem_filter.mpr ⟨member, accepted⟩, rfl⟩
    rw [none] at named
    cases named
  · intro control
    obtain ⟨u, member, same⟩ := (Terminal.mem_describe _ _).mp control
    exact description_ne_control u (List.mem_of_mem_filter member) same
  · intro d named
    obtain ⟨u, member, same⟩ := (Terminal.mem_describe _ _).mp named
    exact ⟨u, same, awaits.allows (List.mem_filter.mp member).2⟩

/-- The brace has ended the sum in the parentheses before it is found not to fit. -/
theorem expected_terminals_fit_in_group :
    ∃ r, Refuses .formula ['(', '1', '+', '2', '}'] r ∧ r.cause = .unexpected .rightBrace "\x7d" ∧
      (r.report ['(', '1', '+', '2', '}']).expected = ["')'", "','"] ∧
      (r.report ['(', '1', '+', '2', '}']).expected ≠ [] ∧
      (r.report ['(', '1', '+', '2', '}']).expected.Pairwise (· < ·) ∧
      "control sequence" ∉ (r.report ['(', '1', '+', '2', '}']).expected ∧
      ∃ ls, ReadBefore .formula ['(', '1', '+', '2', '}'] r ls ∧
        ∀ d ∈ (r.report ['(', '1', '+', '2', '}']).expected, ∃ t : Terminal, t.description = d ∧
          Goal.formula.Allows ((asNames ls).map Lexeme.terminal) t :=
  ⟨_, rfl, rfl, rfl, expected_terminals_fit .formula _ _ _ _ rfl rfl⟩

end Formulary
