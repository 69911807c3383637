import Formulary.Proofs.Texts

/-! Where the faults of a text come from. A fault is a piece of the text that does not fit, the end of a
text that ends too early, or the `=` behind a head that cannot be declared. -/
namespace Formulary

variable {text : List Char} {p : Placed} {ps : List Placed} {r : Rejection}

/-! Pieces stand in the text. -/

theorem Piece.text_ne_nil (b : Bool) (c : Char) (cs : List Char) : (pieceAt b c cs).text ≠ [] := by
  cases piece : pieceAt b c cs with
  | lexeme l =>
    obtain ⟨d, ds, start, -⟩ := Formulary.text_ne_nil (lexeme_of_pieceAt piece).1
    simp [Piece.text, start]
  | unknown word => exact List.cons_ne_nil _ _
  | stray d => exact List.cons_ne_nil _ _

theorem mem_scanFrom {passed offset : Nat} {b : Bool} {cs : List Char}
    (found : p ∈ scanFrom passed offset b cs) :
    ∃ k afterBlank c rest, p.start = offset + k ∧ cs.drop k = c :: rest ∧
      p.piece = pieceAt afterBlank c rest ∧ isBlank c = false := by
  induction cs generalizing passed offset b with
  | nil => cases found
  | cons c cs ih =>
    have later : ∀ {passed b}, p ∈ scanFrom passed (offset + 1) b cs →
        ∃ k afterBlank d rest, p.start = offset + k ∧ (c :: cs).drop k = d :: rest ∧
          p.piece = pieceAt afterBlank d rest ∧ isBlank d = false := by
      intro passed b found
      obtain ⟨k, afterBlank, d, rest, start, here, piece⟩ := ih found
      exact ⟨k + 1, afterBlank, d, rest, by omega, here, piece⟩
    cases passed with
    | succ passed => exact later found
    | zero =>
      rw [scanFrom] at found
      split at found
      · exact later found
      · next visible =>
        rcases List.mem_cons.mp found with rfl | found
        · exact ⟨0, b, c, cs, rfl, rfl, rfl, by simpa using visible⟩
        · exact later found

/-- Pieces are found where the text is not blank. -/
theorem mem_scan (found : p ∈ scan text) :
    ∃ b c rest, text.drop p.start = c :: rest ∧ p.piece = pieceAt b c rest ∧ isBlank c = false := by
  obtain ⟨k, b, c, rest, start, here, piece⟩ := mem_scanFrom found
  rw [start, Nat.zero_add]
  exact ⟨b, c, rest, here, piece⟩

theorem text_of_mem_scan (found : p ∈ scan text) :
    p.piece.text ≠ [] ∧ p.piece.text <+: text.drop p.start := by
  obtain ⟨b, c, rest, here, piece, -⟩ := mem_scan found
  rw [piece, here]
  exact ⟨Piece.text_ne_nil b c rest, text_pieceAt_prefix b c rest⟩

theorem spelt_of_mem_scan {l : Lexeme} (found : p ∈ scan text) (lexeme : p.piece = .lexeme l) :
    l.Spelt := by
  obtain ⟨b, c, rest, -, piece, -⟩ := mem_scan found
  exact (lexeme_of_pieceAt (piece.symm.trans lexeme)).1

theorem mem_scan_lt (found : p ∈ scan text) : p.start < text.length := by
  obtain ⟨nonempty, piece⟩ := text_of_mem_scan found
  have long := piece.length_le
  rw [List.length_drop] at long
  have := List.length_pos_iff.mpr nonempty
  omega

/-! Pieces that do not fit. -/

/-- What is wrong where a piece does not fit. -/
def Piece.cause : Piece → Cause
  | .lexeme l => .unexpected l.terminal (String.ofList l.text)
  | .unknown word => .unknownSymbol (String.ofList ('\\' :: word))
  | .stray c => .character c

theorem takePiece_error {s : State} (refused : s.takePiece p = .error r) :
    r.cause = p.piece.cause ∧ r.position = p.start := by
  unfold State.takePiece at refused
  split at refused
  · next l piece =>
    obtain ⟨t, -, rfl⟩ := mapError_eq_error.mp refused
    rw [piece]
    exact ⟨rfl, rfl⟩
  · next word piece =>
    rw [piece]
    cases refused
    exact ⟨rfl, rfl⟩
  · next c piece =>
    rw [piece]
    cases refused
    exact ⟨rfl, rfl⟩

/-- A run stops at the first piece that does not fit. -/
theorem takePieces_stop {s : State} (refused : s.takePieces ps = .error r) :
    ∃ before p after t, ps = before ++ p :: after ∧ s.takePieces before = .ok t ∧
      t.takePiece p = .error r := by
  induction ps generalizing s with
  | nil => cases refused
  | cons p ps ih =>
    rcases bind_eq_error.mp refused with fault | ⟨u, first, later⟩
    · exact ⟨[], p, ps, s, rfl, rfl, fault⟩
    · obtain ⟨before, q, after, t, rfl, taken, fault⟩ := ih later
      have run := State.takePieces_cons_eq_ok.mpr ⟨u, first, taken⟩
      exact ⟨p :: before, q, after, t, rfl, run, fault⟩

theorem takePieces_error {s : State} (refused : s.takePieces ps = .error r) :
    ∃ p ∈ ps, r.cause = p.piece.cause ∧ r.position = p.start := by
  obtain ⟨before, p, after, t, rfl, -, fault⟩ := takePieces_stop refused
  exact ⟨p, by simp, takePiece_error fault⟩

/-! What the reader keeps of a declaration. -/

/-- What a lexeme that is taken does to the statement around it: nothing, unless it is the `=` of a
declaration or a newline. -/
inductive Effect (site : Site) (offset : Nat) : Lexeme → State → Prop where
  | inside (frames : List (Frame × Chain)) (chain : Chain) (focus : Focus) :
    Effect site offset l (.inside (site.leave frames chain) focus)
  | declares (head : Option Head) :
    Effect site offset .equals (.inside { site with root := .body head offset, frames := [], chain := [] } .operand)
  | nextLine (p : Phrase) : Effect site offset .newline (.fresh .sheet (site.clause p :: site.done) true)
  | ended (p : Phrase) : Effect site offset .newline (.ended (site.clause p))

theorem Effect.of_leave {site : Site} {frames : List (Frame × Chain)} {chain : Chain} {t : State}
    (effect : Effect (site.leave frames chain) offset l t) : Effect site offset l t := by
  cases effect with
  | inside frames chain focus => exact .inside frames chain focus
  | declares head => exact .declares head
  | nextLine p => exact .nextLine p
  | ended p => exact .ended p

theorem feedOperand_effect {site : Site} {t : State} (taken : feedOperand site l = some t) :
    Effect site offset l t := by
  cases l with
  | symbol s => cases s <;> cases taken <;> exact .inside _ _ _
  | _ => cases taken <;> exact .inside _ _ _

theorem feedRoot_effect {site : Site} {t : State} {p : Phrase} (outermost : site.frames = [])
    (taken : feedRoot site p offset l = some t) : Effect site offset l t := by
  unfold feedRoot at taken
  split at taken
  · cases taken
    exact .nextLine p
  · cases taken
    exact .ended p
  · cases taken
  · cases taken
    rw [outermost]
    exact .declares p.head
  · cases taken

theorem feedWhole_effect {site : Site} {t : State} {p : Phrase}
    (taken : feedWhole site p offset l = some t) : Effect site offset l t := by
  unfold feedWhole at taken
  split at taken
  · next outermost => exact feedRoot_effect outermost taken
  · repeat' split at taken
    all_goals
      cases taken
      try exact .inside _ _ _

theorem feedSettled_effect {site : Site} {t : State} {p : Phrase}
    (taken : feedSettled site p offset l = .ok t) : Effect site offset l t := by
  unfold feedSettled at taken
  dsimp only at taken
  split at taken
  · next fed =>
    cases taken
    exact .of_leave (feedWhole_effect fed)
  · cases taken

theorem feedInside_effect {site : Site} {focus : Focus} {t : State}
    (taken : feedInside site focus offset l = .ok t) : Effect site offset l t := by
  unfold feedInside at taken
  split at taken
  · exact feedOperand_effect (elim_ok taken)
  · cases taken
    exact .inside _ _ _
  · unfold feedIndex at taken
    split at taken <;> cases taken <;> exact .inside _ _ _
  · split at taken
    · exact feedSettled_effect taken
    · cases taken
  · exact feedWhole_effect (elim_ok taken)
  all_goals
    cases taken
    try exact .inside _ _ _

/-- The offset of the `=` that a statement keeps. -/
def Clause.mark? : Clause → Option Nat
  | .expression _ => none
  | .declaration _ equals _ => some equals

def Root.mark? : Root → Option Nat
  | .first => none
  | .body _ equals => some equals

/-- The offsets that a state keeps. -/
def State.Keeps (n : Nat) : State → Prop
  | .fresh _ done _ | .sealed done => ∃ c ∈ done, c.mark? = some n
  | .inside site _ => site.root.mark? = some n ∨ ∃ c ∈ site.done, c.mark? = some n
  | .ended c => c.mark? = some n

theorem Site.mark?_clause (site : Site) (p : Phrase) : (site.clause p).mark? = site.root.mark? := by
  unfold Site.clause
  split <;> next root => rw [root]; rfl

theorem Effect.keeps {site : Site} {t : State} (effect : Effect site offset l t) (focus : Focus)
    (kept : t.Keeps n) : (State.inside site focus).Keeps n ∨ l = .equals ∧ n = offset := by
  cases effect with
  | inside => exact .inl kept
  | declares head =>
    rcases kept with here | before
    · exact .inr ⟨rfl, (Option.some.inj here).symm⟩
    · exact .inl (.inr before)
  | nextLine p =>
    obtain ⟨c, member, mark⟩ := kept
    rcases List.mem_cons.mp member with rfl | member
    · exact .inl (.inl (site.mark?_clause p ▸ mark))
    · exact .inl (.inr ⟨c, member, mark⟩)
  | ended p => exact .inl (.inl (site.mark?_clause p ▸ kept))

theorem feed_keeps {s t : State} (taken : s.feed offset l = .ok t) (kept : t.Keeps n) :
    s.Keeps n ∨ l = .equals ∧ n = offset := by
  unfold State.feed at taken
  split at taken
  · cases taken
    exact .inl kept
  · cases taken
    exact .inl kept
  · have effect : Effect _ offset l t := feedOperand_effect (elim_ok taken)
    rcases effect.keeps .operand kept with before | equals
    · exact .inl (before.resolve_left nofun)
    · exact .inr equals
  · exact (feedInside_effect taken).keeps _ kept
  · cases taken
    exact .inl kept
  · cases taken
  · cases taken

theorem takePiece_keeps {s t : State} (taken : s.takePiece p = .ok t) (kept : t.Keeps n) :
    s.Keeps n ∨ p.piece = .lexeme .equals ∧ n = p.start := by
  cases piece : p.piece with
  | lexeme l =>
    have step := (State.takePiece_lexeme piece).mp taken
    cases l with
    | callee f =>
      rcases feed_keeps step kept with before | ⟨equals, -⟩
      · exact .inl before
      · split at equals <;> cases equals
    | _ =>
      rcases feed_keeps step kept with before | ⟨equals, here⟩
      · exact .inl before
      · exact .inr ⟨congrArg Piece.lexeme equals, here⟩
  | unknown word | stray c => simp [State.takePiece, piece] at taken

/-- Every offset that is kept is that of an `=` of the text. -/
theorem takePieces_keeps {s t : State} (taken : s.takePieces ps = .ok t) (kept : t.Keeps n) :
    s.Keeps n ∨ ∃ p ∈ ps, p.piece = .lexeme .equals ∧ n = p.start := by
  induction ps generalizing s with
  | nil =>
    cases taken
    exact .inl kept
  | cons p ps ih =>
    obtain ⟨u, first, later⟩ := State.takePieces_cons_eq_ok.mp taken
    rcases ih later with before | ⟨q, member, equals⟩
    · rcases takePiece_keeps first before with before | equals
      · exact .inl before
      · exact .inr ⟨p, .head _, equals⟩
    · exact .inr ⟨q, .tail _ member, equals⟩

theorem finish_keeps {s : State} {c : Clause} {cs : List Clause} (finished : s.finish = .ok cs)
    (member : c ∈ cs) (mark : c.mark? = some n) : s.Keeps n := by
  cases s with
  | fresh => cases finished
  | ended d =>
    cases finished
    exact List.mem_singleton.mp member ▸ mark
  | sealed done =>
    cases finished
    exact ⟨c, member, mark⟩
  | inside site focus =>
    have single : ∀ (site' : Site) (p : Phrase), site'.root = site.root → c ∈ [site'.clause p] →
        (State.inside site focus).Keeps n := by
      intro site' p same member
      rw [List.mem_singleton.mp member, site'.mark?_clause p, same] at mark
      exact .inl mark
    unfold State.finish at finished
    dsimp only at finished
    split at finished
    · split at finished
      · cases finished
        exact single _ _ rfl member
      · cases finished
    · split at finished
      · cases finished
        exact single _ _ rfl member
      · cases finished
    · cases finished

/-! Whole texts. -/

/-- Where a rejection of a text comes from. -/
inductive Rejection.FoundIn (text : List Char) (r : Rejection) : Prop where
  | piece (p : Placed) : p ∈ scan text → r.cause = p.piece.cause → r.position = p.start →
    r.FoundIn text
  | tooEarly : r.cause = .unexpected .endOfText "" → r.position = lastStart (scan text) →
    r.FoundIn text
  | target (p : Placed) : p ∈ scan text → p.piece = .lexeme .equals → r.cause = .invalidTarget →
    r.position = p.start → r.FoundIn text

/-- Heads are not judged before all of the text has been read. -/
theorem readClauses_stop (refused : readClauses goal text = .error r) :
    (∃ before p after t, scan text = before ++ p :: after ∧
      (State.start goal).takePieces before = .ok t ∧ t.takePiece p = .error r) ∨
    ∃ t t', (State.start goal).takePieces (scan text) = .ok t ∧ t.finish = .error t' ∧
      r = t'.refusal .endOfText [] (lastStart (scan text)) := by
  rcases bind_eq_error.mp refused with stopped | ⟨t, taken, last⟩
  · exact .inl (takePieces_stop stopped)
  · rcases bind_eq_error.mp last with early | ⟨clauses, -, none⟩
    · obtain ⟨t', unfinished, rfl⟩ := mapError_eq_error.mp early
      exact .inr ⟨t, t', taken, unfinished, rfl⟩
    · cases none

theorem readClauses_of_error
    (refused : (State.start goal).takePieces (scan text) = .error r) :
    readClauses goal text = .error r :=
  bind_eq_error.mpr (.inl refused)

theorem readStatements_of_error (refused : readClauses goal text = .error r) :
    readStatements goal text = .error r :=
  bind_eq_error.mpr (.inl refused)

theorem readClauses_error (refused : readClauses goal text = .error r) :
    (∃ p ∈ scan text, r.cause = p.piece.cause ∧ r.position = p.start) ∨
      r.cause = .unexpected .endOfText "" ∧ r.position = lastStart (scan text) := by
  rcases readClauses_stop refused with ⟨before, p, after, t, pieces, -, fault⟩ | ⟨t, t', -, -, rfl⟩
  · exact .inl ⟨p, by simp [pieces], takePiece_error fault⟩
  · exact .inr ⟨rfl, rfl⟩

theorem statement_error {c : Clause} (refused : c.statement = .error r) :
    r.cause = .invalidTarget ∧ c.mark? = some r.position := by
  unfold Clause.statement at refused
  split at refused <;> cases refused
  exact ⟨rfl, rfl⟩

/-- The first fault counts. -/
theorem mapM_first_error {f : α → Except ε β} {as : List α} {e : ε} (refused : as.mapM f = .error e) : ∃ before a after,
    as = before ++ a :: after ∧ (∀ b ∈ before, ∃ c, f b = .ok c) ∧ f a = .error e := by
  induction as with
  | nil => cases refused
  | cons a as ih =>
    rw [List.mapM_cons] at refused
    rcases bind_eq_error.mp refused with first | ⟨b, taken, later⟩
    · exact ⟨[], a, as, rfl, nofun, first⟩
    · rcases bind_eq_error.mp later with rest | ⟨bs, -, none⟩
      · obtain ⟨before, a', after, rfl, fine, fault⟩ := ih rest
        exact ⟨a :: before, a', after, rfl, List.forall_mem_cons.mpr ⟨⟨b, taken⟩, fine⟩, fault⟩
      · cases none

theorem mapM_error {f : α → Except ε β} {as : List α} {e : ε} (refused : as.mapM f = .error e) :
    ∃ a ∈ as, f a = .error e := by
  obtain ⟨before, a, after, rfl, -, fault⟩ := mapM_first_error refused
  exact ⟨a, by simp, fault⟩

/-- Only a head is judged after the text has been read, at an `=` of the text. -/
theorem readStatements_stop (refused : readStatements goal text = .error r) :
    readClauses goal text = .error r ∨ ∃ t p, (State.start goal).takePieces (scan text) = .ok t ∧
      p ∈ scan text ∧ p.piece = .lexeme .equals ∧ r.cause = .invalidTarget ∧ r.position = p.start := by
  rcases bind_eq_error.mp refused with unread | ⟨clauses, read, judged⟩
  · exact .inl unread
  · obtain ⟨clause, member, fault⟩ := mapM_error judged
    obtain ⟨cause, mark⟩ := statement_error fault
    obtain ⟨t, taken, finished⟩ := readClauses_eq_ok.mp read
    rcases takePieces_keeps taken (finish_keeps finished (List.mem_reverse.mpr member) mark) with
      ⟨_, none, -⟩ | ⟨p, found, equals, here⟩
    · cases none
    · exact .inr ⟨t, p, taken, found, equals, cause, here⟩

theorem readClauses_of_misread (refused : readStatements goal text = .error r)
    (misread : r.cause ≠ .invalidTarget) : readClauses goal text = .error r := by
  rcases readStatements_stop refused with unread | ⟨_, _, -, -, -, cause, -⟩
  · exact unread
  · exact absurd cause misread

/-- Every rejection comes from something that stands in the text, or from its end. -/
theorem readStatements_error (refused : readStatements goal text = .error r) : r.FoundIn text := by
  rcases readStatements_stop refused with unread | ⟨_, p, -, member, equals, cause, here⟩
  · rcases readClauses_error unread with ⟨p, member, cause, position⟩ | ⟨cause, position⟩
    · exact .piece p member cause position
    · exact .tooEarly cause position
  · exact .target p member equals cause here

/-- A single statement is never read as none or as several. -/
theorem readStatements_single (ok : readStatements goal text = .ok sts) (single : goal ≠ .sheet) :
    ∃ s, sts = [s] := by
  obtain ⟨ls, -, read⟩ := (readStatements_ok_iff goal text sts).mp ok
  cases read with
  | single => exact ⟨_, rfl⟩
  | sheet => exact absurd rfl single

theorem readStatements_formula (ok : readStatements .formula text = .ok sts) :
    ∃ e, sts = [.expression e] := by
  obtain ⟨ls, -, kind⟩ := (readStatements_ok_iff _ _ _).mp ok
  cases kind with
  | single _ statement =>
    cases statement with
    | expression => exact ⟨_, rfl⟩
    | declaration declares => exact absurd rfl declares

theorem parseStatement_error_iff (text : List Char) (r : Rejection) :
    parseStatement text = .error r ↔ readStatements .line text = .error r := by
  simp only [parseStatement, bind, Except.bind]
  cases read : readStatements .line text with
  | error q => simp
  | ok sts =>
    obtain ⟨s, rfl⟩ := readStatements_single read (by decide)
    simp

theorem parseExpression_error_iff (text : List Char) (r : Rejection) :
    parseExpression text = .error r ↔ readStatements .formula text = .error r := by
  simp only [parseExpression, bind, Except.bind]
  cases read : readStatements .formula text with
  | error q => simp
  | ok sts =>
    obtain ⟨e, rfl⟩ := readStatements_formula read
    simp

end Formulary
