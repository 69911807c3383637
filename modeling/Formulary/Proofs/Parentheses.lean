import Formulary.Proofs.Lines
import Formulary.Proofs.RoundTrip
import Formulary.Proofs.Suffixes

/-! A part of a text in parentheses counts by its expression only, as a group and as the argument of a
call. The head that a phrase would be does not steer the reader, and no lexeme reaches over a
parenthesis. -/
namespace Formulary

variable {site : Site} {p q : Phrase} {offset : Nat} {ps : List Placed}

/-! States without the heads of their phrases. -/

def Phrase.bare (p : Phrase) : Phrase := .plain p.expr

def Frame.bare : Frame → Frame
  | .subscript base => .subscript base.bare
  | frame => frame

def bareFrames (frames : List (Frame × Chain)) : List (Frame × Chain) :=
  frames.map fun open' => (open'.1.bare, open'.2)

def Root.bare : Root → Root
  | .first => .first
  | .body _ equals => .body none equals

def Clause.bare : Clause → Clause
  | .expression e => .expression e
  | .declaration _ equals body => .declaration none equals body

def Focus.bare : Focus → Focus
  | .value p ending => .value p.bare ending
  | .whole p => .whole p.bare
  | focus => focus

def Site.bare (site : Site) : Site :=
  { site with
    done := site.done.map Clause.bare
    root := site.root.bare
    frames := bareFrames site.frames }

def State.bare : State → State
  | .fresh goal done afterNewline => .fresh goal (done.map Clause.bare) afterNewline
  | .inside site focus => .inside site.bare focus.bare
  | .ended clause => .ended clause.bare
  | .sealed done => .sealed (done.map Clause.bare)

@[simp] theorem Frame.bare_bare (frame : Frame) : frame.bare.bare = frame.bare := by
  cases frame <;> rfl

@[simp] theorem Root.bare_bare (root : Root) : root.bare.bare = root.bare := by
  cases root <;> rfl

@[simp] theorem Clause.bare_bare (clause : Clause) : clause.bare.bare = clause.bare := by
  cases clause <;> rfl

@[simp] theorem bareFrames_bareFrames (frames : List (Frame × Chain)) :
    bareFrames (bareFrames frames) = bareFrames frames := by
  simp [bareFrames]

@[simp] theorem Site.bare_bare (site : Site) : site.bare.bare = site.bare := by
  simp [Site.bare]

/-- What a site holds without heads does not depend on them. -/
theorem State.bare_inside (site : Site) (focus : Focus) :
    (State.inside site.bare focus).bare = (State.inside site focus).bare := by
  simp [State.bare]

theorem Site.bare_clause (site : Site) (p : Phrase) :
    (site.bare.clause p.bare).bare = (site.clause p).bare := by
  obtain ⟨_, _, root, _, _⟩ := site
  cases root <;> rfl

theorem Chain.join_bare (c : Chain) (p : Phrase) : c.join p.bare = (c.join p).bare := by
  cases c <;> rfl

theorem settleFrames_bare (frames : List (Frame × Chain)) (c : Chain) (p : Phrase) :
    Site.settleFrames (bareFrames frames) c p.bare =
      (bareFrames (Site.settleFrames frames c p).1, (Site.settleFrames frames c p).2.bare) := by
  induction frames generalizing c p with
  | nil => exact congrArg _ (c.join_bare p)
  | cons top frames ih =>
    obtain ⟨frame, outer⟩ := top
    cases frame with
    | summand i a b =>
      have step : Site.settleFrames (bareFrames ((.summand i a b, outer) :: frames)) c p.bare =
          Site.settleFrames (bareFrames frames) outer (.plain (.sum i a b (c.join p.bare).expr)) := rfl
      rw [step, c.join_bare p]
      exact ih outer (.plain (.sum i a b (c.join p).expr))
    | _ => exact congrArg _ (c.join_bare p)

theorem Site.settle_bare (site : Site) (p : Phrase) :
    site.bare.settle p.bare = ((site.settle p).1.bare, (site.settle p).2.bare) := by
  have settled := settleFrames_bare site.frames site.chain p
  simp only [settle, Site.bare, settled]
  rfl

/-! Heads do not steer the reader. -/

theorem feedOperand_bare (site : Site) (l : Lexeme) :
    (feedOperand site.bare l).map State.bare = (feedOperand site l).map State.bare := by
  have entered : (site.bare.enter .group) = (site.enter .group).bare := rfl
  cases l with
  | symbol s => cases s <;> exact congrArg some (State.bare_inside site _)
  | leftParen => exact congrArg some (entered ▸ State.bare_inside (site.enter .group) .operand)
  | number | scalar | callee => exact congrArg some (State.bare_inside site _)
  | _ => rfl

theorem feedRoot_bare (site : Site) (p : Phrase) (offset : Nat) (l : Lexeme) :
    (feedRoot site.bare p.bare offset l).map State.bare =
      (feedRoot site p offset l).map State.bare := by
  have clause := site.bare_clause p
  obtain ⟨goal, done, root, frames, chain⟩ := site
  cases l with
  | newline =>
    cases goal with
    | sheet => simp [feedRoot, Site.bare, State.bare, ← clause]
    | line | formula => exact congrArg (some ∘ State.ended) clause
  | equals =>
    cases goal <;> cases root <;>
      simp [feedRoot, State.bare, Site.bare, Root.bare, Focus.bare]
  | _ => cases goal <;> cases root <;> rfl

theorem feedWhole_bare (site : Site) (p : Phrase) (offset : Nat) (l : Lexeme) :
    (feedWhole site.bare p.bare offset l).map State.bare =
      (feedWhole site p offset l).map State.bare := by
  cases open' : site.frames with
  | nil =>
    have none : site.bare.frames = [] := by simp [Site.bare, open', bareFrames]
    simp only [feedWhole, open', none]
    exact feedRoot_bare site p offset l
  | cons top frames =>
    obtain ⟨frame, outer⟩ := top
    have inner : site.bare.frames = (frame.bare, outer) :: bareFrames frames := by
      simp [Site.bare, open', bareFrames]
    have around := State.bare_inside (site.leave frames outer)
    have entered := fun f => State.bare_inside ((site.leave frames outer).enter f) .operand
    simp only [feedWhole, open', inner]
    cases frame with
    | group =>
      cases l with
      | rightParen => exact congrArg some (around (.value (.plain p.expr) .plain))
      | comma => exact congrArg some (entered (.second p.expr))
      | _ => rfl
    | second a =>
      cases l with
      | rightParen => exact congrArg some (around (.value (.plain (.vector a p.expr [])) .plain))
      | comma => exact congrArg some (entered (.later a p.expr []))
      | _ => rfl
    | later a b others =>
      cases l with
      | rightParen =>
        exact congrArg some (around (.value (.plain (.vector a b (p.expr :: others).reverse)) .plain))
      | comma => exact congrArg some (entered (.later a b (p.expr :: others)))
      | _ => rfl
    | argument f =>
      cases l with
      | rightParen => exact congrArg some (around (.value (.call f p) .plain))
      | _ => rfl
    | subscript base =>
      cases l with
      | rightBrace => exact congrArg some (around (.value (.index base p) .indexed))
      | _ => rfl
    | operand a =>
      cases l with
      | rightBrace =>
        have supplied : a.supply p.bare.expr = a.supply p.expr := rfl
        simp only [Frame.bare, supplied]
        cases a.supply p.expr with
        | inl a => exact congrArg some (around (.operandBrace a false))
        | inr e => exact congrArg some (around (.value (.plain e) .braced))
      | _ => rfl
    | start i =>
      cases l with
      | rightBrace => exact congrArg some (around (.sumCaret i p.expr))
      | _ => rfl
    | bound i a =>
      cases l with
      | rightBrace => exact congrArg some (entered (.summand i a p.expr))
      | _ => rfl
    | summand => cases l <;> rfl

theorem feedSettled_bare (site : Site) (p : Phrase) (offset : Nat) (l : Lexeme) :
    (feedSettled site.bare p.bare offset l).toOption.map State.bare =
      (feedSettled site p offset l).toOption.map State.bare := by
  have fed := feedWhole_bare (site.settle p).1 (site.settle p).2 offset l
  simp only [feedSettled, site.settle_bare]
  cases bare : feedWhole (site.settle p).1.bare (site.settle p).2.bare offset l with
  | none =>
    rw [bare] at fed
    rw [Option.map_eq_none_iff.mp fed.symm]
    rfl
  | some t =>
    rw [bare] at fed
    obtain ⟨t', taken, same⟩ := Option.map_eq_some_iff.mp fed.symm
    rw [taken]
    exact congrArg some same.symm

theorem feedIndex_bare (site : Site) (p : Phrase) (ending : Ending) :
    (feedIndex site.bare p.bare ending).toOption.map State.bare =
      (feedIndex site p ending).toOption.map State.bare := by
  have entered := State.bare_inside (site.enter (.subscript p)) .operand
  cases ending with
  | plain | braced => exact congrArg some entered
  | indexed =>
    obtain ⟨goal, done, root, frames, chain⟩ := site
    cases frames with
    | nil => rfl
    | cons top frames =>
      obtain ⟨frame, outer⟩ := top
      cases frame with
      | summand i a b =>
        have sum : (chain.join p.bare).expr = (chain.join p).expr := by
          rw [chain.join_bare]
          rfl
        simp only [feedIndex, Site.bare, bareFrames, List.map_cons, Frame.bare, sum]
        exact congrArg some (State.bare_inside ((Site.mk goal done root frames outer).enter
          (.subscript (.plain (.sum i a b (chain.join p).expr)))) .operand)
      | _ => rfl

theorem feedInside_bare (site : Site) (focus : Focus) (offset : Nat) (l : Lexeme) :
    (feedInside site.bare focus.bare offset l).toOption.map State.bare =
      (feedInside site focus offset l).toOption.map State.bare := by
  have here := State.bare_inside site
  have entered := fun f => State.bare_inside (site.enter f) .operand
  cases focus with
  | operand =>
    simp only [feedInside, Focus.bare, toOption_elim]
    exact feedOperand_bare site l
  | whole p =>
    simp only [feedInside, Focus.bare, toOption_elim]
    exact feedWhole_bare site p offset l
  | value p ending =>
    cases l with
    | sign s =>
      exact congrArg some
        (State.bare_inside { site with chain := (p.expr, s) :: site.chain } .operand)
    | index => exact feedIndex_bare site p ending
    | equals | newline | rightParen | rightBrace | comma => exact feedSettled_bare site p offset _
    | _ => rfl
  | callParen f =>
    cases l with
    | leftParen => exact congrArg some (entered (.argument f))
    | _ => rfl
  | vecBrace use =>
    cases l with
    | leftBrace => exact congrArg some (here _)
    | _ => rfl
  | vecName use =>
    cases l with
    | scalar => exact congrArg some (here _)
    | _ => rfl
  | vecClose use =>
    cases l with
    | rightBrace => cases use <;> exact congrArg some (here _)
    | _ => cases use <;> rfl
  | operandBrace a =>
    cases l with
    | leftBrace => exact congrArg some (entered (.operand a))
    | _ => rfl
  | sumBrace =>
    cases l with
    | leftBrace => exact congrArg some (here _)
    | _ => rfl
  | sumName =>
    cases l with
    | scalar => exact congrArg some (here _)
    | symbol s =>
      cases s with
      | vec => exact congrArg some (here _)
      | _ => rfl
    | _ => rfl
  | sumEquals i =>
    cases l with
    | equals => exact congrArg some (entered (.start i))
    | _ => rfl
  | sumCaret i a =>
    cases l with
    | sign s =>
      cases s with
      | power => exact congrArg some (here _)
      | _ => rfl
    | _ => rfl
  | sumBound i a =>
    cases l with
    | leftBrace => exact congrArg some (entered (.bound i a))
    | _ => rfl

theorem feed_bare (s : State) (offset : Nat) (l : Lexeme) :
    (s.bare.feed offset l).toOption.map State.bare = (s.feed offset l).toOption.map State.bare := by
  cases s with
  | fresh goal done afterNewline =>
    have operand := feedOperand_bare (.atStart goal done) l
    cases l with
    | newline => simp [State.bare, State.feed, Except.toOption]
    | endMark =>
      cases goal with
      | sheet => simp [State.bare, State.feed, Except.toOption]
      | line | formula => rfl
    | _ =>
      simp only [State.bare, State.feed, toOption_elim]
      exact operand
  | inside site focus => exact feedInside_bare site focus offset l
  | ended clause =>
    cases l with
    | newline => simp [State.bare, State.feed, Except.toOption]
    | _ => rfl
  | sealed => rfl

theorem take_bare (s : State) (offset : Nat) (l : Lexeme) :
    (s.bare.take offset l).toOption.map State.bare = (s.take offset l).toOption.map State.bare := by
  cases l with
  | callee f =>
    have names : s.bare.wantsName = s.wantsName := by
      cases s with
      | inside site focus => cases focus <;> rfl
      | _ => rfl
    simp only [State.take, names]
    exact feed_bare s offset _
  | _ => exact feed_bare s offset _

theorem exists_ok_of_toOption {x y : Except ε α} {f : α → β} {a : α}
    (same : x.toOption.map f = y.toOption.map f) (ok : x = .ok a) : ∃ b, y = .ok b ∧ f a = f b := by
  rw [ok] at same
  obtain ⟨b, found, image⟩ := Option.map_eq_some_iff.mp same.symm
  exact ⟨b, toOption_eq_some found, image.symm⟩

theorem takePiece_bare {s s' t : State} {piece : Placed} (same : s.bare = s'.bare)
    (taken : s.takePiece piece = .ok t) : ∃ t', s'.takePiece piece = .ok t' ∧ t.bare = t'.bare := by
  cases kind : piece.piece with
  | lexeme l =>
    have step := (State.takePiece_lexeme kind).mp taken
    have alike : (s.take piece.start l).toOption.map State.bare =
        (s'.take piece.start l).toOption.map State.bare := by
      rw [← take_bare s, ← take_bare s', same]
    obtain ⟨t', step', image⟩ := exists_ok_of_toOption alike step
    exact ⟨t', (State.takePiece_lexeme kind).mpr step', image⟩
  | unknown word | stray c => simp [State.takePiece, kind] at taken

/-- States that differ in heads only take the same pieces. -/
theorem takePieces_bare {s s' t : State} (same : s.bare = s'.bare)
    (taken : s.takePieces ps = .ok t) : ∃ t', s'.takePieces ps = .ok t' ∧ t.bare = t'.bare := by
  induction ps generalizing s s' with
  | nil =>
    cases taken
    exact ⟨s', rfl, same⟩
  | cons p ps ih =>
    obtain ⟨u, first, later⟩ := State.takePieces_cons_eq_ok.mp taken
    obtain ⟨u', first', next⟩ := takePiece_bare same first
    obtain ⟨t', later', last⟩ := ih next later
    exact ⟨t', State.takePieces_cons_eq_ok.mpr ⟨u', first', later'⟩, last⟩

theorem finish_whole_bare (site : Site) (p : Phrase) :
    (State.inside site.bare (.whole p.bare)).finish.toOption.map (List.map Clause.bare) =
      (State.inside site (.whole p)).finish.toOption.map (List.map Clause.bare) := by
  have clause := site.bare_clause p
  obtain ⟨goal, done, root, frames, chain⟩ := site
  cases frames with
  | nil =>
    cases goal with
    | sheet => rfl
    | line | formula => exact congrArg (fun c => some [c]) clause
  | cons => rfl

theorem State.bare_finish (s : State) : s.bare.finish.toOption.map (List.map Clause.bare) =
    s.finish.toOption.map (List.map Clause.bare) := by
  cases s with
  | fresh => rfl
  | ended clause => simp [bare, finish, Except.toOption]
  | sealed done => simp [bare, finish, Except.toOption]
  | inside site focus =>
    cases focus with
    | value p ending =>
      have settled : (State.inside site (.value p ending)).bare.finish =
          (State.inside (site.settle p).1.bare (.whole (site.settle p).2.bare)).finish := by
        simp only [bare, Focus.bare, finish, site.settle_bare]
      rw [settled]
      exact finish_whole_bare (site.settle p).1 (site.settle p).2
    | whole p => exact finish_whole_bare site p
    | _ => rfl

theorem finish_bare {t t' : State} (same : t.bare = t'.bare) (finished : t.finish = .ok clauses) :
    ∃ clauses', t'.finish = .ok clauses' ∧ clauses.map Clause.bare = clauses'.map Clause.bare := by
  refine exists_ok_of_toOption ?_ finished
  rw [← t.bare_finish, ← t'.bare_finish, same]

/-- An expression has no head to forget. -/
theorem Clause.eq_of_bare {c : Clause} {e : Expression} (same : (Clause.expression e).bare = c.bare) :
    c = .expression e := by
  cases c with
  | expression =>
    cases same
    rfl
  | declaration => cases same

/-- What is read as an expression is read from any state that differs in heads only. -/
theorem ReadsClauses.judge_bare {others : List Clause} (read : ReadsClauses .formula ls clauses)
    (judged : clauses.reverse.mapM Clause.statement = .ok sts)
    (same : clauses.map Clause.bare = others.map Clause.bare) :
    others.reverse.mapM Clause.statement = .ok sts := by
  cases read with
  | single _ clause =>
    cases clause with
    | expression whole =>
      obtain ⟨c, cs, rfl, first, rest⟩ := List.map_eq_cons_iff.mp same.symm
      obtain rfl : cs = [] := by simpa using rest
      obtain rfl := Clause.eq_of_bare first.symm
      exact judged
    | declaration declares => exact absurd rfl declares

/-! The text around parentheses. -/

variable {u v w e : List Char}

/-- Every parenthesis of a text is a lexeme of its own. -/
theorem Scans.at_paren (read : Scans b (u ++ '(' :: w) ls b' []) : ∃ us ms b₁, ls = us ++ ms ∧
    Scans b (u ++ '(' :: w) us b₁ ('(' :: w) ∧ Scans b₁ ('(' :: w) ms b' [] := by
  rcases read.boundary with passed | ⟨us, l, ms, x, y, after, -, front, back, spelt, text, place, -⟩
  · exact passed
  · obtain ⟨d, ys, rfl⟩ := List.exists_cons_of_ne_nil back
    obtain ⟨rfl, -⟩ := List.cons.inj place
    obtain rfl := Lexeme.leftParen_of_mem spelt (by simp [text])
    have length := congrArg List.length text
    have := List.length_pos_iff.mpr front
    simp [Lexeme.text] at length
    omega

theorem Lexeme.EndsBefore.replace {l : Lexeme} {x : List Char} (ends : l.EndsBefore (x ++ c :: w))
    (notPoint : c ≠ '.') (w' : List Char) : l.EndsBefore (x ++ c :: w') := by
  cases x with
  | nil =>
    cases l with
    | number => exact ⟨ends.1, fun _ d ds same => absurd (List.cons.inj same).1 notPoint⟩
    | _ => exact ends
  | cons a x =>
    cases l with
    | number =>
      refine ⟨ends.1, fun whole d ds same => ?_⟩
      cases x with
      | nil =>
        obtain ⟨rfl, rest⟩ := List.cons.inj same
        obtain ⟨rfl, -⟩ := List.cons.inj rest
        exact ends.2 whole c w rfl
      | cons a' x =>
        obtain ⟨rfl, rest⟩ := List.cons.inj same
        obtain ⟨rfl, -⟩ := List.cons.inj rest
        exact ends.2 whole a' (x ++ c :: w) rfl
    | _ => exact ends

/-- What is scanned before a place does not depend on what stands behind its first character. -/
theorem Scans.replace (read : Scans b (u ++ c :: w) ls b' (c :: w)) (notPoint : c ≠ '.')
    (w' : List Char) : Scans b (u ++ c :: w') ls b' (c :: w') := by
  generalize whole : u ++ c :: w = text at read
  generalize rest : c :: w = after at read
  induction read generalizing u with
  | done =>
    obtain rfl : u = [] := by simpa [← rest] using whole
    exact .done
  | blank blank read ih =>
    subst rest
    obtain ⟨front, rfl⟩ := read.suffix
    obtain rfl : u = _ :: front := List.append_cancel_right (whole.trans (List.cons_append ..).symm)
    exact .blank blank (ih rfl rfl)
  | @lexeme l _ _ _ _ _ _ spelt ends index eq read ih =>
    subst rest
    obtain ⟨front, rfl⟩ := read.suffix
    have same : u ++ c :: w = l.text ++ front ++ c :: w := by rw [whole, eq, List.append_assoc]
    obtain rfl := List.append_cancel_right same
    exact .lexeme spelt (ends.replace notPoint w') index (List.append_assoc ..) (ih rfl rfl)

theorem parts_rightParen : Parts ')' := by unfold Parts; decide

theorem Lexes.enclosed (lexes : Lexes e ks) (b : Bool) (z : List Char) :
    Scans b ('(' :: (e ++ ')' :: z)) (.leftParen :: (ks ++ [.rightParen])) false z :=
  .lexeme trivial trivial nofun rfl (lexes.closed parts_rightParen rfl z)

/-! The reader inside parentheses. -/

/-- In the place of an expression in parentheses another one of the same value leads to the same state,
save for the heads. -/
theorem takes_parenthesised {s t : State} (held : StateReads goal us s) (read : Reads ks (.whole p))
    (pieces : ps.map (·.piece) = (Lexeme.leftParen :: (ks ++ [.rightParen])).map .lexeme)
    (taken : s.takePieces ps = .ok t) (other : Reads ms (.whole q)) (same : q.expr = p.expr) :
    ∃ t', StateReads goal (us ++ .leftParen :: (ms ++ [.rightParen])) t' ∧ t.bare = t'.bare := by
  obtain ⟨_, _, _, opened, -, -⟩ := takePieces_cons_ok taken pieces
  rcases dueAt_of_paren opened with ⟨site, due⟩ | ⟨site, f, rfl⟩
  · have grouped : Reads (.leftParen :: (ks ++ [.rightParen])) (.operand (.plain p.expr) .plain) :=
      .parenthesised .group read
    have value := (due.reaches (grouped.run site)).takePieces pieces
    obtain rfl := Except.ok.inj (taken.symm.trans value)
    refine ⟨_, .operand (held.dueAt due) (.parenthesised .group other), ?_⟩
    rw [same]
  · cases held with
    | inside sited leads =>
      cases leads
      have called : Reads (.callee f :: .leftParen :: (ks ++ [.rightParen]))
          (.operand (.call f p) .plain) := .call .argument read
      have replaced := StateReads.operand sited (Reads.call (f := f) .argument other)
      cases called.run site with
      | cons step rest =>
        cases step 0
        obtain rfl := Except.ok.inj (taken.symm.trans (rest.takePieces pieces))
        refine ⟨.inside site (.value (.call f q) .plain), by simpa using replaced, ?_⟩
        have bare : (Phrase.call f p).bare = (Phrase.call f q).bare := by
          simp only [Phrase.bare, Phrase.call, same]
        simp only [State.bare, Focus.bare, bare]

/-! Whole texts. -/

theorem parseExpression_parenthesised (oneLine : '\n' ∉ e) (ok : parseExpression e = .ok x) :
    parseExpression ('(' :: (e ++ [')'])) = .ok x := by
  obtain ⟨ks, p, lexes, read, rfl⟩ := Lexes.of_oneLine oneLine ok
  have grouped : Reads (.leftParen :: (ks ++ [.rightParen])) (.operand (.plain p.expr) .plain) :=
    .parenthesised .group read
  have scans := lexes.enclosed false []
  exact (parseExpression_ok_iff _ _).mpr
    ⟨0, _, 0, _, ⟨false, by simpa [newlines] using scans⟩, grouped.alone, rfl⟩

theorem parseExpression_congr {e₁ e₂ : List Char} {x r : Expression} (first : '\n' ∉ e₁)
    (second : '\n' ∉ e₂) (ok₁ : parseExpression e₁ = .ok x) (ok₂ : parseExpression e₂ = .ok x)
    (ok : parseExpression (u ++ '(' :: (e₁ ++ ')' :: v)) = .ok r) :
    parseExpression (u ++ '(' :: (e₂ ++ ')' :: v)) = .ok r := by
  obtain ⟨ks, p, lexes, read, rfl⟩ := Lexes.of_oneLine first ok₁
  obtain ⟨ms, q, lexes', other, same⟩ := Lexes.of_oneLine second ok₂
  rw [parseExpression_eq_ok_iff] at ok ⊢
  obtain ⟨t, clauses, run, finished, judged⟩ := readStatements_run ok
  obtain ⟨ls, pieces⟩ := takePieces_lexemes run
  obtain ⟨b, scans⟩ := (scan_eq_lexemes_iff _ ls).mp pieces
  obtain ⟨us, back, b₁, rfl, before, after⟩ := scans.at_paren
  obtain ⟨ns, rfl, b₂, rest⟩ := (lexes.enclosed b₁ v).rest after
  obtain ⟨s₁, ps₁, ps₂, pieces₁, pieces₂, run₁, run₂⟩ := takePieces_split run pieces
  obtain ⟨s₂, ps₃, ps₄, pieces₃, pieces₄, run₃, run₄⟩ := takePieces_split run₂ pieces₂
  have held := takePieces_reads_front (stateReads_start .formula) scans pieces₁ run₁ pieces₂ run₂
  obtain ⟨s₃, held', alike⟩ := takes_parenthesised held read pieces₃ run₃ other same
  obtain ⟨t', run₅, alike'⟩ := takePieces_bare alike run₄
  obtain ⟨clauses', finished', clauses_eq⟩ := finish_bare alike' finished
  have front : Scans false (u ++ '(' :: (e₂ ++ ')' :: v)) us b₁ ('(' :: (e₂ ++ ')' :: v)) :=
    before.replace (by decide) _
  have read' := (takePieces_reads (stateReads_start .formula) scans pieces run).finish finished
  exact readStatements_from held' (front.trans (lexes'.enclosed b₁ v)) rest pieces₄ run₅ finished'
    (read'.judge_bare judged clauses_eq)

/-- An expression in parentheses is itself; and in any text, as a group and as an argument, it can be
replaced by any other of the same value. -/
theorem parenthesised_parts_compose :
    (∀ e x, '\n' ∉ e → parseExpression e = .ok x → parseExpression ('(' :: (e ++ [')'])) = .ok x) ∧
    ∀ u v e₁ e₂ x r, '\n' ∉ e₁ → '\n' ∉ e₂ → parseExpression e₁ = .ok x → parseExpression e₂ = .ok x →
      parseExpression (u ++ '(' :: (e₁ ++ ')' :: v)) = .ok r →
        parseExpression (u ++ '(' :: (e₂ ++ ')' :: v)) = .ok r :=
  ⟨fun _ _ => parseExpression_parenthesised, fun _ _ _ _ _ _ => parseExpression_congr⟩

/-- With `(n)` for its argument a call could not be declared, but its value is the same. -/
theorem parenthesised_parts_compose_in_call :
    parseExpression "(x+1)".toList =
        .ok (.sign .plus (.variable (.scalar 'x')) (.number (numberValue ['1'] []))) ∧
      parseExpression "f((n))_\x7bi\x7d".toList =
        .ok (.index (.call 'f' (.variable (.scalar 'n'))) (.variable (.scalar 'i'))) :=
  ⟨parenthesised_parts_compose.1 "x+1".toList _ (by decide) rfl,
    parenthesised_parts_compose.2 ['f'] "_\x7bi\x7d".toList ['n'] "(n)".toList
      (.variable (.scalar 'n')) _ (by decide) (by decide) rfl rfl rfl⟩

end Formulary
