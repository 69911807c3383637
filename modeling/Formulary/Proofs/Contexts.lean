import Formulary.Proofs.Viability

/-! What the end of a word tells about the state behind it: whether a newline has just been read, whether
an operand of a symbol has, whether the last lexemes may be the end of an operand at all, and whether they
open the header of a sum. -/
namespace Formulary

variable {goal : Goal} {ls ks us vs : List Lexeme} {l : Lexeme} {s t : State}

/-- An expression in braces. -/
def bracedLanguage : Language Terminal :=
  {[.leftBrace]} * expressionGrammar.language * {[.rightBrace]}

/-- How many operands in braces follow a symbol. -/
def Terminal.operands : Terminal → Nat
  | .unary => 1
  | .binary => 2
  | .ternary => 3
  | _ => 0

/-- The word ends with an operand of a symbol. -/
def EndsInOperand (word : List Terminal) : Prop :=
  ∃ before t operands n, word = before ++ t :: operands ∧ operands ∈ bracedLanguage ^ n ∧ 0 < n ∧
    n ≤ t.operands

/-- The word ends with what may be an operand: an operand indeed, the variable of a sum, or an operand of
a symbol that takes more of them. -/
def Goal.MayEndOperand (goal : Goal) (word : List Terminal) : Prop :=
  goal.Allows word (.sign .plus) ∨ goal.Allows word .equals ∨ EndsInOperand word

/-! Runs that are taken apart. -/

namespace State

theorem Feeds.split (feeds : s.Feeds (us ++ vs) t) : ∃ u, s.Feeds us u ∧ u.Feeds vs t := by
  induction us generalizing s with
  | nil => exact ⟨s, .refl s, feeds⟩
  | cons l us ih =>
    cases feeds with
    | cons step rest =>
      obtain ⟨u, first, last⟩ := ih rest
      exact ⟨u, .cons step first, last⟩

theorem Feeds.last (feeds : s.Feeds (us ++ [l]) t) :
    ∃ u offset, s.Feeds us u ∧ u.feed offset l = .ok t := by
  obtain ⟨u, first, last⟩ := feeds.split
  cases last with
  | cons step rest =>
    cases rest
    exact ⟨u, _, first, step⟩

theorem Reaches.unique {u : State} (run : s.Reaches ls t) (feeds : s.Feeds ls u) : u = t := by
  induction run with
  | refl =>
    cases feeds
    rfl
  | cons step _ ih =>
    cases feeds with
    | cons fed rest =>
      obtain rfl := Except.ok.inj ((step _).symm.trans fed)
      exact ih rest

end State

/-! Behind a newline. -/

def State.afterNewline : State → Bool
  | .fresh _ _ afterNewline => afterNewline
  | .ended _ => true
  | .inside _ _ | .sealed _ => false

/-- Before a statement or behind the only one. -/
def State.startsLine : State → Bool
  | .fresh _ _ _ | .ended _ => true
  | .inside _ _ | .sealed _ => false

theorem Effect.newline {site : Site} (effect : Effect site offset l t) (starts : t.startsLine = true) :
    l = .newline := by
  cases effect with
  | inside | declares => cases starts
  | nextLine | ended => rfl

theorem feed_startsLine (fed : s.feed offset l = .ok t) (starts : t.startsLine = true) :
    l = .newline := by
  cases s with
  | fresh goal done b =>
    unfold State.feed at fed
    split at fed
    · rfl
    · cases fed
      cases starts
    · have effect : Effect _ offset _ t := feedOperand_effect (elim_ok fed)
      exact effect.newline starts
    all_goals contradiction
  | inside site focus => exact (feedInside_effect fed).newline starts
  | ended c =>
    cases l with
    | newline => rfl
    | _ => cases fed
  | sealed => cases fed

theorem feedWhole_afterNewline {site : Site} {p : Phrase}
    (fed : feedWhole site p offset .newline = some t) : t.afterNewline = true := by
  obtain ⟨goal, done, root, frames, chain⟩ := site
  cases frames with
  | nil =>
    cases goal <;>
    · cases fed
      rfl
  | cons top frames =>
    obtain ⟨frame, outer⟩ := top
    cases frame <;> cases fed

theorem feedInside_afterNewline {site : Site} {focus : Focus}
    (fed : feedInside site focus offset .newline = .ok t) : t.afterNewline = true := by
  cases focus with
  | value p ending =>
    have settled : feedSettled site p offset .newline = .ok t := fed
    unfold feedSettled at settled
    dsimp only at settled
    split at settled
    · next whole =>
      cases settled
      exact feedWhole_afterNewline whole
    · cases settled
  | whole p => exact feedWhole_afterNewline (elim_ok fed)
  | vecClose use => cases use <;> cases fed
  | _ => cases fed

theorem State.startsLine_of_afterNewline (after : s.afterNewline = true) : s.startsLine = true := by
  cases s with
  | fresh | ended => rfl
  | inside | sealed => cases after

theorem feed_afterNewline (fed : s.feed offset l = .ok t) : t.afterNewline = true ↔ l = .newline := by
  refine ⟨fun after => feed_startsLine fed (State.startsLine_of_afterNewline after), ?_⟩
  rintro rfl
  cases s with
  | fresh | ended =>
    cases fed
    rfl
  | inside site focus => exact feedInside_afterNewline fed
  | sealed => cases fed

theorem State.Feeds.afterNewline_iff (feeds : (State.start goal).Feeds ls s) :
    s.afterNewline = true ↔ (ls.map Lexeme.terminal).getLast? = some .newline := by
  rcases List.eq_nil_or_concat ls with rfl | ⟨us, l, rfl⟩
  · cases feeds
    simp [State.start, State.afterNewline]
  · rw [List.concat_eq_append] at feeds ⊢
    obtain ⟨u, offset, -, fed⟩ := feeds.last
    rw [feed_afterNewline fed]
    simp [terminal_newline_iff]

/-! Behind the braces of a symbol. -/

def Symbol.application : Symbol → Option Application
  | .unary s => some (.unary s)
  | .binary s => some (.binary s)
  | .ternary s => some (.ternary s)
  | .vec | .sum => none

/-- Behind an operand of a symbol, in its braces. -/
def State.afterBraces : State → Bool
  | .inside _ (.value _ .braced) | .inside _ (.operandBrace _ false) => true
  | _ => false

theorem exists_application (applies : 0 < l.terminal.operands) : ∃ k a, l = .symbol k ∧
    k.application = some a ∧ a.due = l.terminal.operands := by
  cases l with
  | symbol k =>
    cases k with
    | vec | sum => cases applies
    | unary | binary | ternary => exact ⟨_, _, rfl, rfl, rfl⟩
  | _ => cases applies

theorem feed_application {k : Symbol} {a : Application} (applies : k.application = some a)
    (fed : s.feed offset (.symbol k) = .ok t) : ∃ site, t = .inside site (.operandBrace a true) := by
  cases k with
  | vec | sum => cases applies
  | unary | binary | ternary =>
    cases applies
    cases s with
    | fresh goal done b =>
      cases fed
      exact ⟨_, rfl⟩
    | inside site focus =>
      cases focus with
      | operand =>
        cases fed
        exact ⟨_, rfl⟩
      | whole => exact nomatch feedWhole_follows (elim_ok fed)
      | vecClose use => cases use <;> cases fed
      | _ => cases fed
    | ended | sealed => cases fed

/-- An operand in braces is supplied to the symbol. -/
theorem Reads.braces {p : Phrase} (inner : Reads ks (.whole p)) (site : Site) (a : Application)
    (first : Bool) : (State.inside site (.operandBrace a first)).Reaches
      (.leftBrace :: (ks ++ [.rightBrace])) (match a.supply p.expr with
        | .inl a' => .inside site (.operandBrace a' false)
        | .inr e => .inside site (.value (.plain e) .braced)) := by
  obtain ⟨site', q, ending, run, settled⟩ := inner.run (site.enter (.operand a)) rfl
  refine .cons (fun _ => rfl) (run.snoc fun offset => ?_)
  have step : (State.inside site' (.value q ending)).feed offset .rightBrace =
      feedSettled site' q offset .rightBrace := rfl
  rw [step, feedSettled_congr settled]
  refine feedSettled_enter (fun _ _ _ => nofun) ?_
  simp only [feedWhole, Site.enter]
  cases a.supply p.expr <;> rfl

theorem bracedLanguage_lexemes (member : ls.map Lexeme.terminal ∈ bracedLanguage) :
    ∃ ks p, ls = .leftBrace :: (ks ++ [.rightBrace]) ∧ Reads ks (.whole p) := by
  obtain ⟨front, back, rfl, member, last⟩ := map_mem_mul member
  obtain ⟨first, ks, rfl, brace, inner⟩ := map_mem_mul member
  obtain rfl := single_of_mem (l := .leftBrace) (fun _ => Lexeme.covered) brace
  obtain rfl := single_of_mem (l := .rightBrace) (fun _ => Lexeme.covered) last
  obtain ⟨p, read⟩ := (exists_reads_iff ks).mpr inner
  exact ⟨ks, p, by simp, read⟩

/-- Behind one operand of a symbol and behind more. -/
theorem exists_afterBraces (n : Nat) (member : ls.map Lexeme.terminal ∈ bracedLanguage ^ (n + 1))
    (site : Site) (a : Application) (first : Bool) (enough : n + 1 ≤ a.due) :
    ∃ t, (State.inside site (.operandBrace a first)).Reaches ls t ∧ t.afterBraces = true := by
  induction n generalizing ls a first with
  | zero =>
    rw [zero_add, pow_one] at member
    obtain ⟨ks, p, rfl, inner⟩ := bracedLanguage_lexemes member
    refine ⟨_, inner.braces site a first, ?_⟩
    cases a.supply p.expr <;> rfl
  | succ n ih =>
    rw [pow_succ'] at member
    obtain ⟨us, vs, rfl, braced, others⟩ := map_mem_mul member
    obtain ⟨ks, p, rfl, inner⟩ := bracedLanguage_lexemes braced
    have run := inner.braces site a first
    cases supplied : a.supply p.expr with
    | inl a' =>
      rw [supplied] at run
      have fewer := Application.due_of_inl supplied
      obtain ⟨t, rest, after⟩ := ih others a' false (by omega)
      exact ⟨t, run.trans rest, after⟩
    | inr e =>
      have last := Application.due_of_inr supplied
      omega

theorem Reads.braced {p : Phrase} (inner : Reads ks (.whole p)) :
    (Lexeme.leftBrace :: (ks ++ [.rightBrace])).map Lexeme.terminal ∈ bracedLanguage := by
  have word : ks.map Lexeme.terminal ∈ expressionGrammar.language := inner.derives
  have opened : [.leftBrace] ∈ ({[.leftBrace]} : Language Terminal) := rfl
  have closed : [.rightBrace] ∈ ({[.rightBrace]} : Language Terminal) := rfl
  rw [List.map_cons, List.map_append]
  exact Language.append_mem_mul (Language.append_mem_mul opened word) closed

theorem Application.due_pos (a : Application) : 0 < a.due := by
  cases a <;> exact Nat.succ_pos _

/-- Up to the next operand of a symbol stand those that it has so far. -/
theorem Reads.operands {a : Application} (opening : Reads ls (.opening (.operand a))) :
    ∃ l us n, ls = l :: us ++ [.leftBrace] ∧ us.map Lexeme.terminal ∈ bracedLanguage ^ n ∧
      n + a.due = l.terminal.operands := by
  generalize same : Part.opening (.operand a) = part at opening
  induction opening generalizing a with
  | unary | binary | ternary =>
    cases same
    exact ⟨_, [], 0, rfl, rfl, Nat.zero_add _⟩
  | @supply _ _ ks _ _ _ inner supplied ih =>
    cases same
    obtain ⟨l, us, n, rfl, before, due⟩ := ih rfl
    have fewer := Application.due_of_inl supplied
    refine ⟨l, us ++ .leftBrace :: (ks ++ [.rightBrace]), n + 1, by simp, ?_, by omega⟩
    rw [pow_succ, List.map_append]
    exact Language.append_mem_mul before inner.braced
  | _ => cases same

theorem endsInOperand_of_row {n : Nat} (ws : List Lexeme)
    (member : us.map Lexeme.terminal ∈ bracedLanguage ^ (n + 1)) (enough : n + 1 ≤ l.terminal.operands) :
    EndsInOperand ((ws ++ l :: us).map Lexeme.terminal) :=
  ⟨ws.map Lexeme.terminal, l.terminal, us.map Lexeme.terminal, n + 1, by simp, member, n.succ_pos, enough⟩

theorem State.Feeds.endsInOperand (feeds : (State.start goal).Feeds ls s) (after : s.afterBraces = true) :
    EndsInOperand (ls.map Lexeme.terminal) := by
  have held : StateReads goal ls s := feeds.reads_start
  cases held with
  | fresh | ended | sealed => cases after
  | @inside site ws fs focus held leads =>
    cases focus with
    | value p ending =>
      cases ending with
      | plain | indexed => cases after
      | braced =>
        cases leads with
        | @applied _ _ ks _ _ opening inner supplied =>
          obtain ⟨l, us, n, rfl, before, due⟩ := opening.operands
          have last := Application.due_of_inr supplied
          have operands := Language.append_mem_mul before inner.braced
          rw [← pow_succ, ← List.map_append] at operands
          simpa using endsInOperand_of_row ws operands (by omega)
    | operandBrace a first =>
      cases first with
      | true => cases after
      | false =>
        obtain ⟨l, us, n, split, before, due⟩ := Reads.operands leads
        obtain ⟨rfl, -⟩ := List.append_inj' split rfl
        cases n with
        | zero =>
          -- Directly behind the symbol the brace would be its first.
          obtain rfl : us = [] := by simpa using before
          have some := a.due_pos
          obtain ⟨k, b, rfl, applies, -⟩ := exists_application (l := l) (by omega)
          obtain ⟨u, offset, -, fed⟩ := feeds.last
          obtain ⟨site', other⟩ := feed_application applies fed
          cases other
        | succ n => exact endsInOperand_of_row ws before (by omega)
    | _ => cases after

theorem EndsInOperand.afterBraces (ends : EndsInOperand (ls.map Lexeme.terminal))
    (feeds : (State.start goal).Feeds ls s) : s.afterBraces = true := by
  obtain ⟨before, kind, operands, n, split, member, some, enough⟩ := ends
  obtain ⟨us, ks, rfl, rfl, behind⟩ := List.map_eq_append_iff.mp split
  obtain ⟨l, vs, rfl, rfl, rfl⟩ := List.map_eq_cons_iff.mp behind
  obtain ⟨k, a, rfl, applies, due⟩ := exists_application (l := l) (by omega)
  obtain ⟨u, -, last⟩ := feeds.split
  cases last with
  | cons step rest =>
    obtain ⟨site, rfl⟩ := feed_application applies step
    obtain ⟨m, rfl⟩ := Nat.exists_eq_add_of_lt some
    rw [Nat.zero_add] at member enough
    obtain ⟨t, run, after⟩ := exists_afterBraces m member site a true (by omega)
    rwa [run.unique rest]

theorem State.Feeds.afterBraces_iff (feeds : (State.start goal).Feeds ls s) :
    s.afterBraces = true ↔ EndsInOperand (ls.map Lexeme.terminal) :=
  ⟨feeds.endsInOperand, fun ends => ends.afterBraces feeds⟩

/-! Behind what may be an operand. -/

/-- Where the scanner looks for all that can follow an expression. -/
def State.atOperandEnd : State → Bool
  | .inside _ (.value _ _) | .inside _ (.sumEquals _) | .inside _ (.operandBrace _ false) => true
  | _ => false

/-- No lexemes lead to a state in which a sign has been refused. -/
theorem StateReads.notWhole (held : StateReads goal ls s) (site : Site) (p : Phrase) :
    s ≠ .inside site (.whole p) := by
  rintro rfl
  cases held with
  | inside _ leads => exact leads.elim

theorem State.atOperandEnd_eq (notWhole : ∀ site p, s ≠ .inside site (.whole p)) :
    s.atOperandEnd = (s.accepts (.sign .plus) || s.accepts .equals || s.afterBraces) := by
  cases s with
  | inside site focus =>
    cases focus with
    | whole p => exact absurd rfl (notWhole site p)
    | operandBrace a first => cases first <;> rfl
    | vecClose use => cases use <;> rfl
    | _ => rfl
  | _ => rfl

theorem State.Feeds.atOperandEnd_iff (feeds : (State.start goal).Feeds ls s) :
    s.atOperandEnd = true ↔ goal.MayEndOperand (ls.map Lexeme.terminal) := by
  rw [Goal.MayEndOperand, ← feeds.accepts_iff, ← feeds.accepts_iff, ← feeds.afterBraces_iff,
    State.atOperandEnd_eq feeds.reads_start.notWhole, Bool.or_eq_true, Bool.or_eq_true, or_assoc]

/-! Behind the header of a sum. -/

/-- The name of the variable that a sum binds. -/
def State.atBoundName : State → Bool
  | .inside _ .sumName => true
  | _ => false

theorem State.Feeds.atBoundName_iff (feeds : (State.start goal).Feeds ls s) :
    s.atBoundName = true ↔ ∃ before, ls.map Lexeme.terminal = before ++ [.sum, .leftBrace] := by
  constructor
  · intro bound
    have held : StateReads goal ls s := feeds.reads_start
    cases held with
    | fresh | ended | sealed => cases bound
    | @inside site ws fs focus held leads =>
      cases focus with
      | sumName =>
        cases leads
        exact ⟨ws.map Lexeme.terminal, by simp [Lexeme.terminal, Symbol.terminal]⟩
      | _ => cases bound
  · rintro ⟨before, split⟩
    obtain ⟨us, ks, rfl, rfl, behind⟩ := List.map_eq_append_iff.mp split
    obtain ⟨k, ns, rfl, sum, last⟩ := List.map_eq_cons_iff.mp behind
    obtain rfl : k = .symbol .sum := Lexeme.covered sum
    obtain rfl := single_of_mem (l := .leftBrace) (fun _ => Lexeme.covered) last
    obtain ⟨u, -, rest⟩ := feeds.split
    cases rest with
    | cons first rest =>
      obtain ⟨site, rfl⟩ := take_sum first
      cases rest with
      | cons second rest =>
        cases second
        cases rest
        rfl

end Formulary
