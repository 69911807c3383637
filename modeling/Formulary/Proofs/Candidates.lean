import Formulary.Proofs.Contexts

/-! What is named in the place of a character that begins no piece, or of a control word that names no
symbol. The scanner looks for all that can come next and has characters of its own. Behind what may be
the end of an operand and behind a newline it looks for more: it does not know in which text it is. For
a control word the kinds of symbols are named, wherever it stands. -/
namespace Formulary

variable {goal : Goal} {ls : List Lexeme} {l : Lexeme} {s t : State} {word : List Terminal}

/-- The terminals with characters of their own. -/
def writtenTerminals : List Terminal :=
  operandTerminals ++ followTerminals ++ [.leftBrace, .endMark]

/-- The terminals that the scanner looks for behind a word. -/
inductive Goal.Sought (goal : Goal) (word : List Terminal) : Terminal → Prop where
  | fits {t : Terminal} : t ∈ writtenTerminals → goal.Allows word t → goal.Sought word t
  | follows {t : Terminal} : goal.MayEndOperand word → t ∈ followTerminals → goal.Sought word t
  | brace : EndsInOperand word → goal.Sought word .leftBrace
  | newline {t : Terminal} : goal ≠ .sheet → word.getLast? = some .newline →
    t ∈ operandTerminals ++ [.newline, .endMark] → goal.Sought word t

/-! What the scanner looks for. -/

theorem State.followTerminals_sought (ends : s.atOperandEnd = true) {t : Terminal}
    (member : t ∈ followTerminals) : t ∈ s.sought := by
  cases s with
  | fresh | ended | sealed => cases ends
  | inside site focus =>
    cases focus with
    | value p ending =>
      cases ending with
      | plain | indexed => exact member
      | braced => exact List.mem_cons_of_mem _ member
    | sumEquals i => exact member
    | operandBrace a first =>
      cases first with
      | false => exact List.mem_cons_of_mem _ member
      | true => cases ends
    | _ => cases ends

theorem State.leftBrace_sought (after : s.afterBraces = true) : .leftBrace ∈ s.sought := by
  cases s with
  | fresh | ended | sealed => cases after
  | inside site focus =>
    cases focus with
    | value p ending =>
      cases ending with
      | plain | indexed => cases after
      | braced => exact List.mem_cons_self
    | operandBrace a first =>
      cases first with
      | false => exact List.mem_cons_self
      | true => cases after
    | _ => cases after

theorem mem_followTerminals (closes : follows l = true) : l.terminal ∈ followTerminals := by
  cases l with
  | sign s => cases s <;> decide
  | index | equals | newline | rightParen | rightBrace | comma => decide
  | _ => cases closes

theorem feedOperand_sought {site : Site} (fed : feedOperand site l = some t) :
    l.terminal ∈ operandTerminals ∨ ∃ k, l = .symbol k := by
  cases l with
  | number | scalar | callee | leftParen => simp [operandTerminals, Lexeme.terminal]
  | symbol k => exact .inr ⟨k, rfl⟩
  | _ => cases fed

theorem fresh_sought (goal : Goal) (done : List Clause) (b : Bool) {t : Terminal}
    (member : t ∈ operandTerminals ++ [.newline]) : t ∈ (State.fresh goal done b).sought := by
  have more : t ∈ operandTerminals ++ [.newline, .endMark] := by
    simp only [List.mem_append, List.mem_cons] at member ⊢
    tauto
  cases goal with
  | sheet => exact more
  | formula | line =>
    cases b with
    | false => exact member
    | true => exact more

/-- The scanner looks for all that a state takes, symbols aside. -/
theorem feed_sought (fed : s.feed offset l = .ok t) : l.terminal ∈ s.sought ∨ ∃ k, l = .symbol k := by
  cases s with
  | fresh goal done b =>
    unfold State.feed at fed
    split at fed
    · next same =>
      cases same
      exact .inl (fresh_sought _ _ _ (by decide))
    · next same =>
      cases same
      exact .inl (by simp [State.sought, Lexeme.terminal])
    · next same _ _ =>
      cases same
      refine (feedOperand_sought (elim_ok fed)).imp_left fun member => ?_
      exact fresh_sought _ _ _ (List.mem_append_left _ member)
    all_goals contradiction
  | inside site focus =>
    have ends : ∀ p ending, follows l = true →
        l.terminal ∈ (State.inside site (.value p ending)).sought :=
      fun p ending closes => State.followTerminals_sought rfl (mem_followTerminals closes)
    have read : feedInside site focus offset l = .ok t := fed
    unfold feedInside at read
    split at read
    · exact feedOperand_sought (elim_ok read)
    · exact .inl (ends _ _ rfl)
    · exact .inl (ends _ _ rfl)
    · split at read
      · next closes => exact .inl (ends _ _ closes)
      · cases read
    · exact .inl (mem_followTerminals (feedWhole_follows (elim_ok read)))
    all_goals try exact .inl (List.mem_singleton.mpr rfl)
    · next a first => cases first <;> exact .inl List.mem_cons_self
    · exact .inr ⟨_, rfl⟩
    · exact .inl (mem_followTerminals rfl)
    · cases read
  | ended c =>
    cases l with
    | newline => exact .inl (by simp [State.sought, Lexeme.terminal])
    | _ => cases fed
  | sealed => cases fed

theorem State.sought_of_accepts {t : Terminal} (accepted : s.accepts t = true)
    (written : t ∈ writtenTerminals) : t ∈ s.sought := by
  have fed : ∀ l : Lexeme, (s.feed 0 l).isOk = true → (∀ k, l ≠ .symbol k) → l.terminal ∈ s.sought := by
    intro l ok plain
    obtain ⟨u, step⟩ := exists_of_isOk ok
    exact (feed_sought step).resolve_right fun ⟨k, same⟩ => plain k same
  cases t with
  | control | endOfText | vec | unary | binary | ternary | sum | other =>
    simp [writtenTerminals, operandTerminals, followTerminals, InfixSign.all] at written
  | _ => exact fed _ accepted nofun

theorem operandTerminals_accepted {t : Terminal} (member : t ∈ operandTerminals) (site : Site) :
    (State.inside site .operand).accepts t = true := by
  simp only [operandTerminals, List.mem_cons, List.not_mem_nil, or_false] at member
  rcases member with rfl | rfl | rfl | rfl <;> rfl

theorem fresh_accepts {t : Terminal} (member : t ∈ operandTerminals ++ [.newline]) (goal : Goal)
    (done : List Clause) (b : Bool) : (State.fresh goal done b).accepts t = true := by
  simp only [operandTerminals, List.cons_append, List.nil_append, List.mem_cons, List.not_mem_nil,
    or_false] at member
  rcases member with rfl | rfl | rfl | rfl | rfl <;> rfl

theorem State.Feeds.sought (feeds : (State.start goal).Feeds ls s) (unsealed : ∀ done, s ≠ .sealed done)
    {t : Terminal} (member : t ∈ s.sought) : goal.Sought (ls.map Lexeme.terminal) t := by
  have held : StateReads goal ls s := feeds.reads_start
  have fits : t ∈ writtenTerminals → s.accepts t = true → goal.Sought (ls.map Lexeme.terminal) t :=
    fun written accepted => .fits written ((feeds.accepts_iff t).mp accepted)
  have single : ∀ u : Terminal, t ∈ [u] → u ∈ writtenTerminals → s.accepts u = true →
      goal.Sought (ls.map Lexeme.terminal) t := by
    intro u here written accepted
    obtain rfl := List.mem_singleton.mp here
    exact fits written accepted
  cases held with
  | @fresh done _ b =>
    have begins : ∀ u ∈ operandTerminals ++ [.newline], u ∈ writtenTerminals := by decide
    have first : t ∈ operandTerminals ++ [.newline] → goal.Sought (ls.map Lexeme.terminal) t :=
      fun here => fits (begins t here) (fresh_accepts here goal done b)
    cases goal with
    | sheet =>
      rw [State.sought, List.append_cons, List.mem_append] at member
      rcases member with here | mark
      · exact first here
      · exact single _ mark (by decide) rfl
    | formula | line =>
      cases b with
      | false => exact first member
      | true => exact .newline nofun (feeds.afterNewline_iff.mp rfl) member
  | @inside site _ _ focus _ leads =>
    cases focus with
    | operand =>
      have written : t ∈ writtenTerminals := List.mem_append_left _ (List.mem_append_left _ member)
      exact fits written (operandTerminals_accepted member site)
    | value p ending =>
      have ends := feeds.atOperandEnd_iff.mp rfl
      cases ending with
      | plain | indexed => exact .follows ends member
      | braced =>
        rcases List.mem_cons.mp member with rfl | member
        · exact .brace (feeds.afterBraces_iff.mp rfl)
        · exact .follows ends member
    | whole => exact leads.elim
    | sumEquals i => exact .follows (feeds.atOperandEnd_iff.mp rfl) member
    | operandBrace a first =>
      cases first with
      | true => exact single _ member (by decide) rfl
      | false =>
        rcases List.mem_cons.mp member with rfl | member
        · exact .brace (feeds.afterBraces_iff.mp rfl)
        · exact .follows (feeds.atOperandEnd_iff.mp rfl) member
    | vecClose use => cases use <;> exact single _ member (by decide) rfl
    | _ => exact single _ member (by decide) rfl
  | ended notSheet => exact .newline notSheet (feeds.afterNewline_iff.mp rfl) member
  | sealed => exact absurd rfl (unsealed _)

theorem Goal.Sought.mem {t : Terminal} (sought : goal.Sought (ls.map Lexeme.terminal) t)
    (feeds : (State.start goal).Feeds ls s) : t ∈ s.sought := by
  cases sought with
  | fits written allows => exact State.sought_of_accepts ((feeds.accepts_iff t).mpr allows) written
  | follows ends member => exact State.followTerminals_sought (feeds.atOperandEnd_iff.mpr ends) member
  | brace ends => exact State.leftBrace_sought (feeds.afterBraces_iff.mpr ends)
  | newline single last member =>
    have after := feeds.afterNewline_iff.mpr last
    have held : StateReads goal ls s := feeds.reads_start
    cases held with
    | @fresh done _ b =>
      obtain rfl : b = true := after
      cases goal with
      | sheet => exact absurd rfl single
      | formula | line => exact member
    | inside | sealed => cases after
    | ended => exact member

/-- Behind a word the scanner looks for what can come next and has characters of its own, and for more
where it cannot tell. -/
theorem State.Feeds.sought_iff (feeds : (State.start goal).Feeds ls s)
    (unsealed : ∀ done, s ≠ .sealed done) (t : Terminal) :
    t ∈ s.sought ↔ goal.Sought (ls.map Lexeme.terminal) t :=
  ⟨feeds.sought unsealed, fun sought => sought.mem feeds⟩

theorem Goal.Sought.written {t : Terminal} (sought : goal.Sought word t) : t ∈ writtenTerminals := by
  have ends : ∀ t ∈ followTerminals, t ∈ writtenTerminals := by decide
  have behind : ∀ t ∈ operandTerminals ++ [.newline, .endMark], t ∈ writtenTerminals := by decide
  cases sought with
  | fits written => exact written
  | follows _ member => exact ends t member
  | brace => decide
  | newline _ _ member => exact behind t member

/-! Symbols. -/

/-- The terminals that a control word stands for. -/
def namedTerminals : List Terminal := [.unary, .binary, .ternary, .sum]

theorem State.accepts_named (notWhole : ∀ site p, s ≠ .inside site (.whole p)) {t : Terminal}
    (member : t ∈ namedTerminals) : s.accepts t = s.accepts .number := by
  simp only [namedTerminals, List.mem_cons, List.not_mem_nil, or_false] at member
  cases s with
  | inside site focus =>
    cases focus with
    | whole p => exact absurd rfl (notWhole site p)
    | vecClose use => cases use <;> rcases member with rfl | rfl | rfl | rfl <;> rfl
    | _ => rcases member with rfl | rfl | rfl | rfl <;> rfl
  | _ => rcases member with rfl | rfl | rfl | rfl <;> rfl

theorem State.accepts_vec (notWhole : ∀ site p, s ≠ .inside site (.whole p)) :
    s.accepts .vec = (s.accepts .number || s.atBoundName) := by
  cases s with
  | inside site focus =>
    cases focus with
    | whole p => exact absurd rfl (notWhole site p)
    | vecClose use => cases use <;> rfl
    | _ => rfl
  | _ => rfl

/-! A sheet is over at its end mark. -/

/-- Only a letter is taken as another lexeme than it is. -/
theorem takePiece_feed {p : Placed} (taken : s.takePiece p = .ok t) :
    ∃ l, s.feed p.start l = .ok t ∧
      (p.piece = .lexeme l ∨ l.terminal = .scalar ∨ l.terminal = .callee) := by
  cases piece : p.piece with
  | unknown w | stray c => simp [State.takePiece, piece] at taken
  | lexeme l =>
    have step := (State.takePiece_lexeme piece).mp taken
    unfold State.take at step
    split at step
    · refine ⟨_, step, .inr ?_⟩
      split
      · exact .inl rfl
      · exact .inr rfl
    · exact ⟨l, step, .inl rfl⟩

theorem takePiece_newline {p : Placed} (taken : s.takePiece p = .ok t) (starts : t.startsLine = true) :
    p.piece = .lexeme .newline := by
  obtain ⟨l, fed, same | letter⟩ := takePiece_feed taken
  · rw [same, feed_startsLine fed starts]
  · obtain rfl := feed_startsLine fed starts
    rcases letter with letter | letter <;> cases letter

theorem feed_sealed (fed : s.feed offset l = .ok (.sealed done)) :
    l = .endMark ∧ ∃ b, s = .fresh .sheet done b := by
  cases s with
  | fresh goal done b =>
    unfold State.feed at fed
    split at fed
    · cases fed
    · next fresh =>
      cases fresh
      cases fed
      exact ⟨rfl, b, rfl⟩
    · have effect : Effect _ offset _ _ := feedOperand_effect (elim_ok fed)
      cases effect
    all_goals contradiction
  | inside site focus => cases feedInside_effect fed
  | ended c => cases l <;> cases fed
  | sealed => cases fed

theorem takePiece_sealed {p : Placed} (taken : s.takePiece p = .ok (.sealed done)) :
    p.piece = .lexeme .endMark ∧ s.startsLine = true := by
  obtain ⟨l, fed, kind⟩ := takePiece_feed taken
  obtain ⟨rfl, b, rfl⟩ := feed_sealed fed
  rcases kind with same | letter | letter
  · exact ⟨same, rfl⟩
  · cases letter
  · cases letter

/-- Before a piece of the text that is read the end mark has not been passed. -/
theorem takePieces_ne_sealed {text : List Char} {before after : List Placed} {p : Placed}
    (pieces : scan (goal.source text) = before ++ p :: after)
    (taken : (State.start goal).takePieces before = .ok s) (done : List Clause) : s ≠ .sealed done := by
  rintro rfl
  obtain ⟨ls, lexemes⟩ := takePieces_lexemes taken
  have held := (takePieces_feeds taken lexemes).reads_start
  obtain rfl : goal = .sheet := by
    generalize asNames ls = row at held
    cases held with
    | sealed sheet => exact sheet
  rcases List.eq_nil_or_concat before with rfl | ⟨front, mark, rfl⟩
  · cases taken
  rw [List.concat_eq_append] at pieces taken
  obtain ⟨u, run, last⟩ := State.takePieces_append_eq_ok.mp taken
  obtain ⟨v, step, nothing⟩ := State.takePieces_cons_eq_ok.mp last
  cases nothing
  obtain ⟨isMark, starts⟩ := takePiece_sealed step
  obtain ⟨offset, whole⟩ := scan_sheet text
  obtain ⟨back, z, behind⟩ : ∃ back z, p :: after = back ++ [z] :=
    ⟨_, _, (List.dropLast_append_getLast (List.cons_ne_nil p after)).symm⟩
  have lines : piecesOf 0 (splitLines (sheetBody text)) = front ++ mark :: back := by
    have same := whole.symm.trans pieces
    rw [behind, ← List.append_assoc] at same
    simpa using (List.append_inj' same rfl).1
  obtain ⟨us, q, rfl, other⟩ := piecesOf_endMark (fun line => oneLine_of_mem_splitLines)
    (fun line => (bodyOf_sheetBody text).plain) 0 lines isMark
  obtain ⟨w, -, final⟩ := State.takePieces_append_eq_ok.mp run
  obtain ⟨x, newline, nothing⟩ := State.takePieces_cons_eq_ok.mp final
  cases nothing
  exact other (takePiece_newline newline starts)

/-! Reports. -/

/-- A piece in the text and the lexemes before it. -/
def FoundBehind (goal : Goal) (text : List Char) (piece : Piece) (position : Nat)
    (ls : List Lexeme) : Prop :=
  ∃ before after, scan (goal.source text) = before ++ ⟨piece, position⟩ :: after ∧
    before.map (·.piece) = ls.map .lexeme

/-- A character or a control word is refused in a state to which the lexemes before it lead. -/
theorem Refuses.stops {text : List Char} {r : Rejection} (refused : Refuses goal text r)
    (misread : r.cause ≠ .invalidTarget) (notToken : ∀ t w, r.cause ≠ .unexpected t w) :
    ∃ piece ls s, FoundBehind goal text piece r.position ls ∧ (State.start goal).Feeds (asNames ls) s ∧
      (∀ done, s ≠ .sealed done) ∧ s.takePiece ⟨piece, r.position⟩ = .error r := by
  have read := readClauses_of_misread ((refuses_iff goal text r).mp refused) misread
  rcases readClauses_stop read with ⟨before, p, after, u, pieces, taken, fault⟩ | ⟨u, s, -, -, rfl⟩
  · obtain ⟨ls, lexemes⟩ := takePieces_lexemes taken
    obtain ⟨piece, start⟩ := p
    obtain rfl : start = r.position := (takePiece_error fault).2.symm
    exact ⟨piece, ls, u, ⟨before, after, pieces, lexemes⟩, takePieces_feeds taken lexemes,
      takePieces_ne_sealed pieces taken, fault⟩
  · exact absurd rfl (notToken _ _)

theorem State.sought_ne_nil (unsealed : ∀ done, s ≠ .sealed done) : s.sought ≠ [] := by
  cases s with
  | fresh goal done b => cases goal <;> cases b <;> nofun
  | ended c => nofun
  | sealed done => exact absurd rfl (unsealed done)
  | inside site focus =>
    cases focus with
    | value p ending => cases ending <;> nofun
    | operandBrace a b => cases b <;> nofun
    | _ => nofun

theorem State.Feeds.expectation_sought (feeds : (State.start goal).Feeds ls s)
    (unsealed : ∀ done, s ≠ .sealed done) :
    Terminal.expectation (.control :: s.sought) = Terminal.describe s.sought := by
  have words : ∀ t ∈ writtenTerminals, decide (t ≠ .control) = true := by decide
  have wanted : (.control :: s.sought).filter (· ≠ .control) = s.sought := by
    rw [List.filter_cons_of_neg (by decide)]
    exact List.filter_eq_self.mpr fun t member => words t (feeds.sought unsealed member).written
  have some : s.sought.isEmpty = false := by
    rw [Bool.eq_false_iff, ne_eq, List.isEmpty_iff]
    exact State.sought_ne_nil unsealed
  rw [Terminal.expectation, wanted, some]
  rfl

/-- What is named in the place of a character that begins no piece: all that the scanner looks for. -/
def NamesSought (goal : Goal) (text : List Char) (r : Rejection) : Prop :=
  ∀ c, r.cause = .character c → ∃ ls, FoundBehind goal text (.stray c) r.position ls ∧
    ∀ d, d ∈ (r.report text).expected ↔
      ∃ t : Terminal, t.description = d ∧ goal.Sought ((asNames ls).map Lexeme.terminal) t

/-- What is named in the place of an unknown symbol: symbols of every kind, which can come next where a
number can. Besides, a vector can be bound by a sum. -/
def NamesSymbols (goal : Goal) (text : List Char) (r : Rejection) : Prop :=
  ∀ name, r.cause = .unknownSymbol name →
    (r.report text).expected = ["'\\sum_'", "'\\vec'", "symbol"] ∧
      ∃ w ls, name = String.ofList ('\\' :: w) ∧ FoundBehind goal text (.unknown w) r.position ls ∧
        (∀ t ∈ namedTerminals, goal.Allows ((asNames ls).map Lexeme.terminal) t ↔
          goal.Allows ((asNames ls).map Lexeme.terminal) .number) ∧
        (goal.Allows ((asNames ls).map Lexeme.terminal) .vec ↔
          goal.Allows ((asNames ls).map Lexeme.terminal) .number ∨
            ∃ before, (asNames ls).map Lexeme.terminal = before ++ [.sum, .leftBrace])

theorem Refuses.namesSought {text : List Char} {r : Rejection} (refused : Refuses goal text r) :
    NamesSought goal text r := by
  intro c cause
  obtain ⟨piece, ls, s, found, feeds, unsealed, fault⟩ :=
    refused.stops (by rw [cause]; nofun) (by rw [cause]; nofun)
  have kind := (takePiece_error fault).1
  rw [cause] at kind
  cases piece with
  | lexeme | unknown => cases kind
  | stray =>
    cases kind
    have expected : .control :: s.sought = r.expected :=
      congrArg Rejection.expected (Except.error.inj fault)
    have report : (r.report text).expected = Terminal.describe s.sought := by
      rw [← feeds.expectation_sought unsealed, expected]
      rfl
    refine ⟨ls, found, fun d => ?_⟩
    rw [report, Terminal.mem_describe]
    exact exists_congr fun t => and_comm.trans (and_congr_right' (feeds.sought_iff unsealed t))

theorem Refuses.namesSymbols {text : List Char} {r : Rejection} (refused : Refuses goal text r) :
    NamesSymbols goal text r := by
  intro name cause
  obtain ⟨piece, ls, s, found, feeds, -, fault⟩ :=
    refused.stops (by rw [cause]; nofun) (by rw [cause]; nofun)
  have kind := (takePiece_error fault).1
  rw [cause] at kind
  cases piece with
  | lexeme | stray => cases kind
  | unknown w =>
    have expected : symbolTerminals = r.expected :=
      congrArg Rejection.expected (Except.error.inj fault)
    have report : (r.report text).expected = Terminal.expectation symbolTerminals := by
      rw [expected]
      rfl
    have notWhole := feeds.reads_start.notWhole
    refine ⟨report.trans (by decide), w, ls, Cause.unknownSymbol.inj kind, found, fun t member => ?_, ?_⟩
    · rw [← feeds.accepts_iff, ← feeds.accepts_iff, State.accepts_named notWhole member]
    · rw [← feeds.accepts_iff, ← feeds.accepts_iff, ← feeds.atBoundName_iff, State.accepts_vec notWhole,
        Bool.or_eq_true]

/-- What is reported to be expected where the scanner stops. -/
theorem lexical_expectations (goal : Goal) (text : List Char) (r : Rejection)
    (refused : Refuses goal text r) : NamesSought goal text r ∧ NamesSymbols goal text r :=
  ⟨refused.namesSought, refused.namesSymbols⟩

/-- Behind the first operand of a fraction only a brace can come next, but it may look like the end of an
expression. -/
theorem lexical_expectations_in_fraction :
    ∃ r, Refuses .formula ['\\', 'f', 'r', 'a', 'c', '{', '1', '}', '$'] r ∧ r.cause = .character '$' ∧
      (r.report ['\\', 'f', 'r', 'a', 'c', '{', '1', '}', '$']).expected =
        ["')'", "'*'", "'+'", "','", "'-'", "'/'", "'='", "'^'", "'_\x7b'", "'\x7b'", "'\x7d'",
          "newline"] ∧
      NamesSought .formula ['\\', 'f', 'r', 'a', 'c', '{', '1', '}', '$'] r ∧
      NamesSymbols .formula ['\\', 'f', 'r', 'a', 'c', '{', '1', '}', '$'] r :=
  ⟨_, rfl, rfl, by decide, lexical_expectations _ _ _ rfl⟩

/-- Behind a number a closing brace is named although none is open. -/
theorem lexical_expectations_not_exact : ¬∀ goal text r piece ls, Refuses goal text r →
    (∃ c, r.cause = .character c) ∨ (∃ name, r.cause = .unknownSymbol name) →
    FoundBehind goal text piece r.position ls →
    ∀ d, d ∈ (r.report text).expected ↔ ∃ t ∈ Terminal.grammar, t.description = d ∧
      goal.Allows ((asNames ls).map Lexeme.terminal) t := by
  intro exactly
  let r : Rejection := ⟨.character '$', 2, .control :: followTerminals⟩
  have refused : Refuses .formula ['1', ' ', '$'] r := rfl
  have found : FoundBehind .formula ['1', ' ', '$'] (.stray '$') r.position [.number ['1'] []] :=
    ⟨[⟨.lexeme (.number ['1'] []), 0⟩], [], rfl, rfl⟩
  have named : Terminal.rightBrace.description ∈ (r.report ['1', ' ', '$']).expected := by decide
  obtain ⟨t, member, description, allows⟩ :=
    (exactly _ _ r _ _ refused (.inl ⟨'$', rfl⟩) found _).mp named
  have only : ∀ t ∈ Terminal.grammar, t.description = Terminal.rightBrace.description →
      t = .rightBrace := by decide
  obtain rfl := only t member description
  have fed : (State.start .formula).feed 0 (.number ['1'] []) = .ok _ := rfl
  have feeds := State.Feeds.cons fed (.refl _)
  have accepted := (feeds.accepts_iff .rightBrace).mpr allows
  cases accepted

end Formulary
