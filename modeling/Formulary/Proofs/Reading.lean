import Formulary.Parse

/-! The notation as rules that say what a run of lexemes is where an operand is due. The rules name
the same open constructs as the reader, but no reader: the summand of a sum is a whole expression, so
each run of lexemes is a whole expression in at most one way. -/
namespace Formulary

def Identifier.lexemes : Identifier → List Lexeme
  | .scalar c => [.scalar c]
  | .vector c => [.symbol .vec, .leftBrace, .scalar c, .rightBrace]

/-- The number of operands that an application still needs. -/
def Application.due : Application → Nat
  | .ternary _ => 3
  | .binary _ | .ternarySecond _ _ => 2
  | .unary _ | .binarySecond _ _ | .ternaryThird _ _ _ => 1

theorem Application.due_of_inl {a a' : Application} (supplied : a.supply e = .inl a') :
    a.due = a'.due + 1 := by
  cases a <;> cases supplied <;> rfl

theorem Application.due_of_inr {a : Application} (supplied : a.supply e = .inr e') :
    a.due = 1 := by
  cases a <;> cases supplied <;> rfl

inductive Part where
  /-- Operands, each with a sign behind it. -/
  | chain (c : Chain)
  /-- Everything up to the place of an expression inside a construct. -/
  | opening (frame : Frame)
  | operand (p : Phrase) (ending : Ending)
  | whole (p : Phrase)

inductive Reads : List Lexeme → Part → Prop where
  | chainNil : Reads [] (.chain [])
  | chainSign : Reads ls (.chain c) → Reads ks (.operand p ending) →
      Reads (ls ++ ks ++ [.sign s]) (.chain ((p.expr, s) :: c))
  | group : Reads [.leftParen] (.opening .group)
  | second : Reads ls (.opening .group) → Reads ks (.whole p) →
      Reads (ls ++ ks ++ [.comma]) (.opening (.second p.expr))
  | third : Reads ls (.opening (.second a)) → Reads ks (.whole p) →
      Reads (ls ++ ks ++ [.comma]) (.opening (.later a p.expr []))
  | later : Reads ls (.opening (.later a b others)) → Reads ks (.whole p) →
      Reads (ls ++ ks ++ [.comma]) (.opening (.later a b (p.expr :: others)))
  | argument : Reads [.callee f, .leftParen] (.opening (.argument f))
  | subscript : Reads ls (.operand p ending) → ending ≠ .indexed →
      Reads (ls ++ [.index]) (.opening (.subscript p))
  /-- An index mark behind an indexed operand indexes the sum whose summand the operand ends. -/
  | sumSubscript : Reads ls (.opening (.summand i a b)) → Reads cs (.chain c) →
      Reads ks (.operand p .indexed) →
      Reads (ls ++ cs ++ ks ++ [.index]) (.opening (.subscript (.plain (.sum i a b (c.join p).expr))))
  | unary : Reads [.symbol (.unary s), .leftBrace] (.opening (.operand (.unary s)))
  | binary : Reads [.symbol (.binary s), .leftBrace] (.opening (.operand (.binary s)))
  | ternary : Reads [.symbol (.ternary s), .leftBrace] (.opening (.operand (.ternary s)))
  | supply : Reads ls (.opening (.operand a)) → Reads ks (.whole p) → a.supply p.expr = .inl a' →
      Reads (ls ++ ks ++ [.rightBrace, .leftBrace]) (.opening (.operand a'))
  | start : Reads (.symbol .sum :: .leftBrace :: i.lexemes ++ [.equals]) (.opening (.start i))
  | bound : Reads ls (.opening (.start i)) → Reads ks (.whole p) →
      Reads (ls ++ ks ++ [.rightBrace, .sign .power, .leftBrace]) (.opening (.bound i p.expr))
  | summand : Reads ls (.opening (.bound i a)) → Reads ks (.whole p) →
      Reads (ls ++ ks ++ [.rightBrace]) (.opening (.summand i a p.expr))
  | number : Reads [.number whole fraction]
      (.operand (.plain (.number (numberValue whole fraction))) .plain)
  | identifier : Reads i.lexemes (.operand (.identifier i) .plain)
  | parenthesised : Reads ls (.opening .group) → Reads ks (.whole p) →
      Reads (ls ++ ks ++ [.rightParen]) (.operand (.plain p.expr) .plain)
  | pair : Reads ls (.opening (.second a)) → Reads ks (.whole p) →
      Reads (ls ++ ks ++ [.rightParen]) (.operand (.plain (.vector a p.expr [])) .plain)
  | vector : Reads ls (.opening (.later a b others)) → Reads ks (.whole p) →
      Reads (ls ++ ks ++ [.rightParen])
        (.operand (.plain (.vector a b (p.expr :: others).reverse)) .plain)
  | call : Reads ls (.opening (.argument f)) → Reads ks (.whole p) →
      Reads (ls ++ ks ++ [.rightParen]) (.operand (.call f p) .plain)
  | indexed : Reads ls (.opening (.subscript base)) → Reads ks (.whole p) →
      Reads (ls ++ ks ++ [.rightBrace]) (.operand (.index base p) .indexed)
  | applied : Reads ls (.opening (.operand a)) → Reads ks (.whole p) → a.supply p.expr = .inr e →
      Reads (ls ++ ks ++ [.rightBrace]) (.operand (.plain e) .braced)
  | last : Reads cs (.chain c) → Reads ks (.operand p ending) → Reads (cs ++ ks) (.whole (c.join p))
  | lastSum : Reads cs (.chain c) → Reads ls (.opening (.summand i a b)) → Reads ks (.whole p) →
      Reads (cs ++ ls ++ ks) (.whole (c.join (.plain (.sum i a b p.expr))))

/-- An expression stands on one line. -/
theorem Reads.no_newline (read : Reads ls part) : .newline ∉ ls := by
  induction read with
  | @start i | @identifier i => cases i <;> simp [Identifier.lexemes]
  | _ => simp_all

theorem Reads.no_endMark (read : Reads ls part) : .endMark ∉ ls := by
  induction read with
  | @start i | @identifier i => cases i <;> simp [Identifier.lexemes]
  | _ => simp_all

/-! Runs of the reader over lexemes, wherever in the text they stand. -/

theorem mapError_ok (f : ε → ε') (a : α) : (Except.ok a).mapError f = .ok a := rfl

theorem mapError_error (f : ε → ε') (e : ε) :
    (Except.error e : Except ε α).mapError f = .error (f e) := rfl

theorem mapError_eq_ok {x : Except ε α} {f : ε → ε'} : x.mapError f = .ok a ↔ x = .ok a := by
  cases x <;> simp [mapError_ok, mapError_error]

theorem mapError_eq_error {x : Except ε α} {f : ε → ε'} {e' : ε'} :
    x.mapError f = .error e' ↔ ∃ e, x = .error e ∧ f e = e' := by
  cases x <;> simp [mapError_ok, mapError_error]

theorem map_eq_ok {x : Except ε α} {f : α → β} {b : β} : x.map f = .ok b ↔ ∃ a, x = .ok a ∧ f a = b := by
  cases x <;> simp [Except.map]

theorem bind_eq_ok {x : Except ε α} {f : α → Except ε β} {b : β} :
    x.bind f = .ok b ↔ ∃ a, x = .ok a ∧ f a = .ok b := by
  cases x <;> simp [Except.bind]

theorem bind_eq_error {x : Except ε α} {f : α → Except ε β} {e : ε} :
    x.bind f = .error e ↔ x = .error e ∨ ∃ a, x = .ok a ∧ f a = .error e := by
  cases x <;> simp [Except.bind]

namespace State

/-- The lexemes are taken one by one, each as the lexeme that it is. -/
inductive Reaches : State → List Lexeme → State → Prop where
  | refl (s : State) : Reaches s [] s
  | cons {s t u : State} : (∀ offset, s.feed offset l = .ok t) → Reaches t ls u →
      Reaches s (l :: ls) u

theorem Reaches.trans {s t u : State} (first : s.Reaches ls t) (last : t.Reaches ks u) :
    s.Reaches (ls ++ ks) u := by
  induction first with
  | refl => exact last
  | cons step _ ih => exact .cons step (ih last)

theorem Reaches.single {s t : State} (step : ∀ offset, s.feed offset l = .ok t) :
    s.Reaches [l] t :=
  .cons step (.refl t)

theorem Reaches.snoc {s t u : State} (first : s.Reaches ls t)
    (step : ∀ offset, t.feed offset l = .ok u) : s.Reaches (ls ++ [l]) u :=
  first.trans (.single step)

/-- Where a letter can only be a name, a callee is refused as such. -/
theorem take_of_feed {s t : State} (fed : s.feed offset l = .ok t) : s.take offset l = .ok t := by
  cases l with
  | callee f =>
    have notName : s.wantsName = false := by
      unfold wantsName
      split
      · cases fed
      · cases fed
      · rfl
    rw [take, notName]
    exact fed
  | _ => exact fed

theorem takePieces_cons (s : State) (p : Placed) (ps : List Placed) :
    s.takePieces (p :: ps) = (s.takePiece p).bind (·.takePieces ps) := rfl

theorem takePieces_cons_eq_ok {s t : State} {p : Placed} {ps : List Placed} :
    s.takePieces (p :: ps) = .ok t ↔ ∃ u, s.takePiece p = .ok u ∧ u.takePieces ps = .ok t :=
  bind_eq_ok

theorem takePieces_append_eq_ok {s t : State} {ps qs : List Placed} :
    s.takePieces (ps ++ qs) = .ok t ↔ ∃ u, s.takePieces ps = .ok u ∧ u.takePieces qs = .ok t := by
  rw [takePieces_append]
  exact bind_eq_ok

theorem takePiece_lexeme {s t : State} {p : Placed} (piece : p.piece = .lexeme l) :
    s.takePiece p = .ok t ↔ s.take p.start l = .ok t := by
  simp only [takePiece, piece]
  exact mapError_eq_ok

theorem takePieces_lexeme {s t : State} {p : Placed} (piece : p.piece = .lexeme l)
    (step : s.take p.start l = .ok t) : s.takePieces [p] = .ok t :=
  takePieces_cons_eq_ok.mpr ⟨t, (takePiece_lexeme piece).mpr step, rfl⟩

theorem Reaches.takePieces {s t : State} (run : s.Reaches ls t) {ps : List Placed}
    (pieces : ps.map (·.piece) = ls.map .lexeme) : s.takePieces ps = .ok t := by
  induction run generalizing ps with
  | refl =>
    obtain rfl : ps = [] := by simpa using pieces
    rfl
  | cons step _ ih =>
    obtain ⟨p, ps, rfl, piece, tail⟩ := List.map_eq_cons_iff.mp pieces
    have first := (takePiece_lexeme piece).mpr (take_of_feed (step p.start))
    exact takePieces_cons_eq_ok.mpr ⟨_, first, ih tail⟩

end State

/-! Settling. -/

theorem settleFrames_join (frames : List (Frame × Chain)) (chain : Chain) (p : Phrase) :
    Site.settleFrames frames chain p = Site.settleFrames frames [] (chain.join p) := by
  cases frames with
  | nil => rfl
  | cons top frames =>
    obtain ⟨frame, outer⟩ := top
    cases frame <;> rfl

theorem feedSettled_congr {site site' : Site} {p q : Phrase} (same : site'.settle q = site.settle p)
    (offset : Nat) (l : Lexeme) : feedSettled site' q offset l = feedSettled site p offset l := by
  simp only [feedSettled, same]

/-! Every rule is a run of the reader. -/

/-- What the reader makes of a part, wherever an operand is due. The operands of a whole expression
stay in the chain until a sign behind it settles them. -/
def Part.Run (ls : List Lexeme) : Part → Prop
  | .chain c => ∀ site : Site, (State.inside site .operand).Reaches ls
      (.inside { site with chain := c ++ site.chain } .operand)
  | .opening frame => ∀ site : Site, (State.inside site .operand).Reaches ls
      (.inside (site.enter frame) .operand)
  | .operand p ending => ∀ site : Site, (State.inside site .operand).Reaches ls
      (.inside site (.value p ending))
  | .whole p => ∀ site : Site, site.chain = [] → ∃ site' q ending,
      (State.inside site .operand).Reaches ls (.inside site' (.value q ending)) ∧
        site'.settle q = site.settle p

theorem feedSettled_enter {site : Site} {frame : Frame} {p : Phrase} {offset : Nat} {l : Lexeme}
    {t : State} (notSum : ∀ i a b, frame ≠ .summand i a b)
    (closes : feedWhole (site.enter frame) p offset l = some t) :
    feedSettled (site.enter frame) p offset l = .ok t := by
  have settled : (site.enter frame).settle p = (site.enter frame, p) := by
    cases frame with
    | summand i a b => exact absurd rfl (notSum i a b)
    | _ => rfl
  simp only [feedSettled, settled, closes]

/-- A whole expression inside a construct, with the sign behind it. -/
theorem Part.Run.close {site : Site} {frame : Frame} {p : Phrase} {l : Lexeme} {t : State}
    (opening : Part.Run ls (.opening frame)) (whole : Part.Run ks (.whole p))
    (notSum : ∀ i a b, frame ≠ .summand i a b)
    (closer : l = .comma ∨ l = .rightParen ∨ l = .rightBrace)
    (closes : ∀ offset, feedWhole (site.enter frame) p offset l = some t) :
    (State.inside site .operand).Reaches (ls ++ ks ++ [l]) t := by
  obtain ⟨site', q, ending, run, settled⟩ := whole (site.enter frame) rfl
  refine ((opening site).trans run).snoc fun offset => ?_
  have step : (State.inside site' (.value q ending)).feed offset l =
      feedSettled site' q offset l := by
    rcases closer with rfl | rfl | rfl <;> rfl
  rw [step, feedSettled_congr settled, feedSettled_enter notSum (closes offset)]

theorem Reads.run (read : Reads ls part) : part.Run ls := by
  induction read with
  | chainNil => exact fun site => .refl _
  | chainSign _ _ chain operand =>
    exact fun site => ((chain site).trans (operand _)).snoc fun _ => rfl
  | group => exact fun site => .single fun _ => rfl
  | argument => exact fun site => .snoc (.single fun _ => rfl) fun _ => rfl
  | unary | binary | ternary => exact fun site => .snoc (.single fun _ => rfl) fun _ => rfl
  | second _ _ opening whole | third _ _ opening whole | later _ _ opening whole =>
    exact fun site => opening.close whole nofun (.inl rfl) fun _ => rfl
  | @subscript ls p ending _ plain operand =>
    refine fun site => (operand site).snoc fun _ => ?_
    cases ending with
    | indexed => exact absurd rfl plain
    | plain | braced => rfl
  | sumSubscript _ _ _ opening chain operand =>
    refine fun site => (((opening site).trans (chain _)).trans (operand _)).snoc fun _ => ?_
    simp only [Site.enter, List.append_nil]
    rfl
  | @supply _ a _ p a' _ _ supplied opening whole =>
    intro site
    have brace : (State.inside site .operand).Reaches (_ ++ _ ++ [.rightBrace])
        (.inside site (.operandBrace a' false)) :=
      opening.close whole nofun (.inr (.inr rfl)) fun _ => by
        simp only [feedWhole, Site.enter, supplied]
        rfl
    simpa using brace.snoc (u := .inside (site.enter (.operand a')) .operand) fun _ => rfl
  | @start i =>
    intro site
    cases i with
    | scalar c =>
      exact .cons (fun _ => rfl) <| .cons (fun _ => rfl) <| .cons (fun _ => rfl) <|
        .single fun _ => rfl
    | vector c =>
      exact .cons (fun _ => rfl) <| .cons (fun _ => rfl) <| .cons (fun _ => rfl) <|
        .cons (fun _ => rfl) <| .cons (fun _ => rfl) <| .cons (fun _ => rfl) <|
        .single fun _ => rfl
  | @bound _ i _ p _ _ opening whole =>
    intro site
    have brace : (State.inside site .operand).Reaches (_ ++ _ ++ [.rightBrace])
        (.inside site (.sumCaret i p.expr)) :=
      opening.close whole nofun (.inr (.inr rfl)) fun _ => rfl
    have caret := brace.snoc (l := .sign .power) (u := .inside site (.sumBound i p.expr))
      fun _ => rfl
    simpa using caret.snoc (u := .inside (site.enter (.bound i p.expr)) .operand) fun _ => rfl
  | summand _ _ opening whole =>
    exact fun site => opening.close whole nofun (.inr (.inr rfl)) fun _ => rfl
  | number => exact fun site => .single fun _ => rfl
  | @identifier i =>
    intro site
    cases i with
    | scalar c => exact .single fun _ => rfl
    | vector c =>
      exact .cons (fun _ => rfl) <| .cons (fun _ => rfl) <| .cons (fun _ => rfl) <|
        .single fun _ => rfl
  | parenthesised _ _ opening whole | pair _ _ opening whole | vector _ _ opening whole
  | call _ _ opening whole =>
    exact fun site => opening.close whole nofun (.inr (.inl rfl)) fun _ => rfl
  | indexed _ _ opening whole =>
    exact fun site => opening.close whole nofun (.inr (.inr rfl)) fun _ => rfl
  | applied _ _ supplied opening whole =>
    intro site
    refine opening.close whole nofun (.inr (.inr rfl)) fun _ => ?_
    simp only [feedWhole, Site.enter, supplied]
    rfl
  | @last _ c _ p _ _ _ chain operand =>
    intro site fresh
    refine ⟨_, p, _, (chain site).trans (operand _), ?_⟩
    simp only [Site.settle, Site.leave, fresh, List.append_nil, settleFrames_join site.frames c]
  | @lastSum cs c _ i a b _ p _ _ _ chain opening whole =>
    intro site fresh
    let chained : Site := { site with chain := c }
    obtain ⟨site', q, ending, run, settled⟩ := whole (chained.enter (.summand i a b)) rfl
    have operands : (State.inside site .operand).Reaches cs (.inside chained .operand) := by
      simpa [fresh, chained] using chain site
    refine ⟨site', q, ending, (operands.trans (opening _)).trans run, settled.trans ?_⟩
    have inner : Site.settleFrames ((.summand i a b, c) :: site.frames) [] p =
        Site.settleFrames site.frames c (.plain (.sum i a b p.expr)) := rfl
    simp only [Site.settle, Site.enter, Site.leave, chained, fresh, inner,
      settleFrames_join site.frames c]

end Formulary
