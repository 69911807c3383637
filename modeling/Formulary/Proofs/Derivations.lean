import Formulary.Proofs.Grammar
import Formulary.Proofs.Texts

/-! The rules that the reader follows and the grammar accept the same lexemes. The rules leave one reading
of each expression, the grammar several, so the two directions go different ways: a reading is one of
the derivations, and whatever derivation is taken, the reader gets through the lexemes. -/
namespace Formulary

/-! From readings to derivations. -/

namespace Category

def Derives (n : Category) (ls : List Lexeme) : Prop :=
  expressionGrammar.Derivable Lexeme.terminal n ls

theorem Derives.rule {n : Category} {row : ContextFreeGrammar.Row Terminal Category}
    (member : row ∈ n.alternatives)
    (spells : expressionGrammar.Spells Lexeme.terminal Derives row ls) : n.Derives ls :=
  ContextFreeGrammar.Derivable.rule (mem_expressionGrammar.mpr member) spells

theorem Derives.unit {n m : Category} (member : [.nonterminal m] ∈ n.alternatives)
    (word : m.Derives ls) : n.Derives ls :=
  .rule member ⟨ls, [], by simp, word, rfl⟩

theorem Derives.infix {n m k : Category} {s : InfixSign}
    (member : [.nonterminal m, .terminal (.sign s), .nonterminal k] ∈ n.alternatives)
    (left : m.Derives ls) (right : k.Derives ks) : n.Derives (ls ++ .sign s :: ks) :=
  .rule member ⟨ls, _, rfl, left, _, ks, rfl, rfl, ks, [], by simp, right, rfl⟩

theorem Derives.primary (word : Derives .primary ls) : Derives .indexed ls :=
  .unit (.head _) word

theorem Derives.symbolic (word : Derives .symbolic ls) : Derives .primary ls :=
  .unit (by decide) word

theorem Derives.parenthesised (inner : Derives .expression ls) :
    Derives .primary (.leftParen :: ls ++ [.rightParen]) :=
  .rule (.head _) ⟨_, _, rfl, rfl, ls, _, rfl, inner, _, [], rfl, rfl, rfl⟩

theorem Derives.vector (first : Derives .expression ls) (others : Derives .items ks) :
    Derives .primary (.leftParen :: ls ++ ks ++ [.rightParen]) := by
  have row : Derives .vector (.leftParen :: ls ++ ks ++ [.rightParen]) :=
    .rule (.head _) ⟨_, _, rfl, rfl, ls, ks ++ [.rightParen], by simp, first, ks, _, rfl, others,
      _, [], rfl, rfl, rfl⟩
  exact .unit (by decide) row

theorem Derives.second (item : Derives .expression ls) : Derives .items (.comma :: ls) :=
  .rule (.head _) ⟨_, _, rfl, rfl, ls, [], by simp, item, rfl⟩

theorem Derives.later (items : Derives .items ls) (item : Derives .expression ks) :
    Derives .items (ls ++ .comma :: ks) :=
  .rule (.tail _ (.head _)) ⟨ls, _, rfl, items, _, _, rfl, rfl, ks, [], by simp, item, rfl⟩

theorem Derives.identifier (i : Identifier) : Derives .identifier i.lexemes := by
  cases i with
  | scalar c => exact .rule (.head _) ⟨_, [], rfl, rfl, rfl⟩
  | vector c =>
    have row : Derives .vectorIdentifier (Identifier.vector c).lexemes :=
      .rule (.head _) ⟨_, _, rfl, rfl, _, _, rfl, rfl, _, _, rfl, rfl, _, [], rfl, rfl, rfl⟩
    exact .unit (by decide) row

theorem Derives.operand (inner : Derives .expression ls) :
    Derives .operand (.leftBrace :: ls ++ [.rightBrace]) :=
  .rule (.head _) ⟨_, _, rfl, rfl, ls, _, rfl, inner, _, [], rfl, rfl, rfl⟩

theorem Derives.summation (i : Identifier) (start : Derives .expression as)
    (bound : Derives .expression bs) (summand : Derives .expression es) :
    Derives .symbolic (.symbol .sum :: .leftBrace :: (i.lexemes ++ .equals :: (as ++
      .rightBrace :: .sign .power :: .leftBrace :: (bs ++ .rightBrace :: es)))) :=
  .rule (.tail _ (.tail _ (.tail _ (.head _))))
    ⟨_, _, rfl, rfl, _, _, rfl, rfl, i.lexemes, _, rfl, .identifier i, _, _, rfl, rfl,
      as, _, rfl, start, _, _, rfl, rfl, _, _, rfl, rfl, _, _, rfl, rfl, bs, _, rfl, bound,
      _, _, rfl, rfl, es, [], by simp, summand, rfl⟩

end Category

def Operands : Nat → List Lexeme → Prop
  | 0, ls => ls = []
  | n + 1, ls => ∃ ks os, ls = ks ++ os ∧ Category.Derives .operand ks ∧ Operands n os

/-- What a construct is open for, and what comes of it when that follows. -/
def Frame.Derives (ls : List Lexeme) : Frame → Prop
  | .group => ls = [.leftParen]
  | .second _ => ∃ ks, Category.Derives .expression ks ∧ ls = .leftParen :: ks ++ [.comma]
  | .later _ _ _ => ∃ ks is, Category.Derives .expression ks ∧ Category.Derives .items is ∧
      ls = .leftParen :: ks ++ is ++ [.comma]
  | .argument f => ls = [.callee f, .leftParen]
  | .subscript _ => ∃ ks, Category.Derives .primary ks ∧ ls = ks ++ [.index]
  | .operand a => ∃ ks, ls = ks ++ [.leftBrace] ∧
      ∀ os, Operands a.due os → Category.Derives .symbolic (ks ++ os)
  | .start _ => ∀ as bs es, Category.Derives .expression as → Category.Derives .expression bs →
      Category.Derives .expression es → Category.Derives .symbolic
        (ls ++ as ++ [.rightBrace, .sign .power, .leftBrace] ++ bs ++ [.rightBrace] ++ es)
  | .bound _ _ => ∀ bs es, Category.Derives .expression bs → Category.Derives .expression es →
      Category.Derives .symbolic (ls ++ bs ++ [.rightBrace] ++ es)
  | .summand _ _ _ => ∀ es, Category.Derives .expression es → Category.Derives .symbolic (ls ++ es)

/-- The operands of a chain fall into those that a sum, a product and a power wait with. -/
def ChainDerives (ls : List Lexeme) : Prop :=
  ∃ as bs cs, ls = as ++ bs ++ cs ∧
    (∀ ks, Category.Derives .product ks → Category.Derives .sum (as ++ ks)) ∧
    (∀ ks, Category.Derives .power ks → Category.Derives .product (bs ++ ks)) ∧
    (∀ ks, Category.Derives .indexed ks → Category.Derives .power (cs ++ ks))

theorem ChainDerives.nil : ChainDerives [] :=
  ⟨[], [], [], rfl, fun _ => .unit (.head _), fun _ => .unit (.head _), fun _ => .unit (.head _)⟩

theorem ChainDerives.sign (chain : ChainDerives ls) (operand : Category.Derives .indexed ks)
    (s : InfixSign) : ChainDerives (ls ++ ks ++ [.sign s]) := by
  obtain ⟨as, bs, cs, rfl, sum, product, power⟩ := chain
  have tight := power ks operand
  have middle := product _ tight
  have loose := sum _ middle
  have start : ∀ ls, Category.Derives .power ls → Category.Derives .product ([] ++ ls) :=
    fun _ => .unit (.head _)
  have begin : ∀ ls, Category.Derives .indexed ls → Category.Derives .power ([] ++ ls) :=
    fun _ => .unit (.head _)
  cases s with
  | power =>
    refine ⟨as, bs, cs ++ ks ++ [.sign .power], by simp, sum, product, fun us word => ?_⟩
    simpa using Category.Derives.infix (n := .power) (.tail _ (.head _)) tight word
  | times =>
    refine ⟨as, bs ++ cs ++ ks ++ [.sign .times], [], by simp, sum, fun us word => ?_, begin⟩
    simpa using Category.Derives.infix (n := .product) (.tail _ (.head _)) middle word
  | divide =>
    refine ⟨as, bs ++ cs ++ ks ++ [.sign .divide], [], by simp, sum, fun us word => ?_, begin⟩
    simpa using Category.Derives.infix (n := .product) (.tail _ (.tail _ (.head _))) middle word
  | plus =>
    refine ⟨as ++ bs ++ cs ++ ks ++ [.sign .plus], [], [], by simp, fun us word => ?_, start, begin⟩
    simpa using Category.Derives.infix (n := .sum) (.tail _ (.head _)) loose word
  | minus =>
    refine ⟨as ++ bs ++ cs ++ ks ++ [.sign .minus], [], [], by simp, fun us word => ?_, start, begin⟩
    simpa using Category.Derives.infix (n := .sum) (.tail _ (.tail _ (.head _))) loose word

theorem ChainDerives.last (chain : ChainDerives ls) (operand : Category.Derives .indexed ks) :
    Category.Derives .expression (ls ++ ks) := by
  obtain ⟨as, bs, cs, rfl, sum, product, power⟩ := chain
  have word := sum _ (product _ (power ks operand))
  exact .unit (.head _) (by simpa using word)

def Part.Derives (ls : List Lexeme) : Part → Prop
  | .chain _ => ChainDerives ls
  | .opening frame => frame.Derives ls
  | .operand _ ending => Category.Derives .indexed ls ∧
      (ending ≠ .indexed → Category.Derives .primary ls)
  | .whole _ => Category.Derives .expression ls

theorem Part.Derives.of_primary (word : Category.Derives .primary ls) (p : Phrase)
    (ending : Ending) : (Part.operand p ending).Derives ls :=
  ⟨word.primary, fun _ => word⟩

/-- Every reading is a derivation. -/
theorem Reads.derives (read : Reads ls part) : part.Derives ls := by
  induction read with
  | chainNil => exact .nil
  | chainSign _ _ chain operand => exact chain.sign operand.1 _
  | group => exact rfl
  | @second _ ks _ _ _ opening whole =>
    obtain rfl := opening
    exact ⟨ks, whole, rfl⟩
  | @third _ _ ks _ _ _ opening whole =>
    obtain ⟨first, word, rfl⟩ := opening
    exact ⟨first, .comma :: ks, word, .second whole, by simp⟩
  | @later _ _ _ _ ks _ _ _ opening whole =>
    obtain ⟨first, items, word, others, rfl⟩ := opening
    exact ⟨first, items ++ .comma :: ks, word, .later others whole, by simp⟩
  | argument => exact rfl
  | @subscript ls _ _ _ plain operand => exact ⟨ls, operand.2 plain, rfl⟩
  | @sumSubscript ls _ _ _ cs _ ks _ _ _ _ opening chain operand =>
    have sum := opening _ (chain.last operand.1)
    exact ⟨ls ++ cs ++ ks, by simpa using sum.symbolic, rfl⟩
  | unary =>
    refine ⟨[.symbol (.unary _)], rfl, ?_⟩
    rintro _ ⟨ks, os, rfl, first, rfl⟩
    exact .rule (.head _) ⟨_, _, rfl, rfl, ks, [], by simp, first, rfl⟩
  | binary =>
    refine ⟨[.symbol (.binary _)], rfl, ?_⟩
    rintro _ ⟨ks, os, rfl, first, ks', os', rfl, second, rfl⟩
    exact .rule (.tail _ (.head _))
      ⟨_, _, rfl, rfl, ks, _, rfl, first, ks', [], by simp, second, rfl⟩
  | ternary =>
    refine ⟨[.symbol (.ternary _)], rfl, ?_⟩
    rintro _ ⟨ks, os, rfl, first, ks', os', rfl, second, ks'', os'', rfl, third, rfl⟩
    exact .rule (.tail _ (.tail _ (.head _)))
      ⟨_, _, rfl, rfl, ks, _, rfl, first, ks', _, rfl, second, ks'', [], by simp, third, rfl⟩
  | @supply _ a ks _ a' _ _ supplied opening whole =>
    obtain ⟨before, rfl, closes⟩ := opening
    refine ⟨before ++ (.leftBrace :: ks ++ [.rightBrace]), by simp, fun os rest => ?_⟩
    rw [Application.due_of_inl supplied] at closes
    simpa using closes _ ⟨_, os, rfl, .operand whole, rest⟩
  | @start i =>
    intro as bs es start bound summand
    simpa using Category.Derives.summation i start bound summand
  | bound _ _ opening whole =>
    intro bs es bound summand
    simpa using opening _ bs es whole bound summand
  | summand _ _ opening whole =>
    intro es summand
    simpa using opening _ es whole summand
  | @number whole fraction =>
    have word : Category.Derives .number [.number whole fraction] :=
      .rule (.head _) ⟨_, [], rfl, rfl, rfl⟩
    exact .of_primary (.unit (by decide) word) _ _
  | @identifier i =>
    have word : Category.Derives .variableUse i.lexemes := .unit (.head _) (.identifier i)
    exact .of_primary (.unit (by decide) word) _ _
  | parenthesised _ _ opening whole =>
    obtain rfl := opening
    exact .of_primary (.parenthesised whole) _ _
  | pair _ _ opening whole =>
    obtain ⟨first, word, rfl⟩ := opening
    exact .of_primary (by simpa using Category.Derives.vector word (.second whole)) _ _
  | vector _ _ opening whole =>
    obtain ⟨first, items, word, others, rfl⟩ := opening
    exact .of_primary (by simpa using Category.Derives.vector word (.later others whole)) _ _
  | @call _ f ks _ _ _ opening whole =>
    obtain rfl := opening
    have word : Category.Derives .call (.callee f :: .leftParen :: ks ++ [.rightParen]) :=
      .rule (.head _) ⟨_, _, rfl, rfl, _, _, rfl, rfl, ks, _, rfl, whole, _, [], rfl, rfl, rfl⟩
    exact .of_primary (.unit (by decide) word) _ _
  | @indexed _ _ ks _ _ _ opening whole =>
    obtain ⟨base, word, rfl⟩ := opening
    refine ⟨.rule (.tail _ (.head _)) ⟨base, .index :: ks ++ [.rightBrace], by simp, word, _, _, rfl,
      rfl, ks, _, rfl, whole, _, [], rfl, rfl, rfl⟩, fun plain => absurd rfl plain⟩
  | @applied _ a ks _ _ _ _ supplied opening whole =>
    obtain ⟨before, rfl, closes⟩ := opening
    rw [Application.due_of_inr supplied] at closes
    have word := closes _ ⟨_, [], rfl, .operand whole, rfl⟩
    exact .of_primary (by simpa using word.symbolic) _ _
  | last _ _ chain operand => exact chain.last operand.1
  | @lastSum cs _ ls _ _ _ ks _ _ _ _ chain opening whole =>
    rw [List.append_assoc]
    exact chain.last (opening _ whole).symbolic.primary

/-! From derivations to runs of the reader. -/

namespace Site

/-- Operands were added since, and sums were opened. -/
inductive Grows : Site → Site → Prop where
  | refl (site : Site) : Grows site site
  | sign : Grows site site' → Grows site { site' with chain := operand :: site'.chain }
  | enter : Grows site site' → Grows site (site'.enter (.summand i a b))

theorem Grows.trans (first : Grows site site') (last : Grows site' site'') : Grows site site'' := by
  induction last with
  | refl => exact first
  | sign _ ih => exact .sign ih
  | enter _ ih => exact .enter ih

theorem settleFrames_outside (frames : List (Frame × Chain)) (c c' : Chain) (p p' : Phrase) :
    (settleFrames frames c p).1 = (settleFrames frames c' p').1 := by
  induction frames generalizing c c' p p' with
  | nil => rfl
  | cons top frames ih =>
    obtain ⟨frame, outer⟩ := top
    cases frame with
    | summand i a b => exact ih _ _ _ _
    | _ => rfl

/-- Whatever was added, it settles in the construct that was open. -/
theorem Grows.settle (grows : Grows site site') (p q : Phrase) :
    (site'.settle p).1 = (site.settle q).1 := by
  induction grows generalizing p with
  | refl => simp only [Site.settle, leave, settleFrames_outside _ _ site.chain p q]
  | @sign site' operand _ ih =>
    rw [← ih p]
    simp only [Site.settle, leave, settleFrames_outside _ (operand :: _) site'.chain p p]
  | enter _ ih => exact ih _

/-- The innermost of the sums that were opened. -/
theorem Grows.summand (grows : Grows (site.enter (.summand i a b)) site') :
    ∃ j a' b' outer frames, site'.frames = (.summand j a' b', outer) :: frames ∧
      Grows site (site'.leave frames outer) := by
  generalize same : site.enter (.summand i a b) = start at grows
  induction grows with
  | refl =>
    subst same
    exact ⟨i, a, b, site.chain, site.frames, rfl, .refl site⟩
  | sign _ ih => exact ih
  | enter grows _ =>
    subst same
    exact ⟨_, _, _, _, _, rfl, (Grows.enter (.refl site)).trans grows⟩

end Site

/-- From wherever an operand is due, the reader gets behind a value. -/
def Continues (ls : List Lexeme) : Prop :=
  ∀ site : Site, ∃ site' p ending,
    (State.inside site .operand).Reaches ls (.inside site' (.value p ending)) ∧ site.Grows site'

/-- And an index mark can follow, if only behind a sum that was opened. -/
def Indexable (ls : List Lexeme) : Prop :=
  ∀ site : Site, ∃ site' p ending,
    (State.inside site .operand).Reaches ls (.inside site' (.value p ending)) ∧
      site.Grows site' ∧ (ending = .indexed → ∃ i a b outer frames,
        site'.frames = (.summand i a b, outer) :: frames ∧ site.Grows (site'.leave frames outer))

/-- Behind the brace that closes an operand. -/
def State.supplied (site : Site) (a : Application) (e : Expression) : State :=
  match a.supply e with
  | .inl a => .inside site (.operandBrace a false)
  | .inr e => .inside site (.value (.plain e) .braced)

/-- The parentheses in which a comma can stand. -/
def Frame.Lists : Frame → Prop
  | .group | .second _ | .later _ _ _ => True
  | _ => False

def Category.Runs (ls : List Lexeme) : Category → Prop
  | .expression | .sum | .product | .power | .indexed => Continues ls
  | .primary | .call | .variableUse | .number | .vector | .symbolic => Indexable ls
  | .identifier => ∃ i : Identifier, ls = i.lexemes
  | .vectorIdentifier => ∃ c, ls = (Identifier.vector c).lexemes
  | .operand => ∀ (site : Site) a first, ∃ e,
      (State.inside site (.operandBrace a first)).Reaches ls (.supplied site a e)
  | .items => ∀ (site : Site) frame site' p ending, frame.Lists → (site.enter frame).Grows site' →
      ∃ frame' site'' q ending', frame'.Lists ∧ frame' ≠ .group ∧
        (State.inside site' (.value p ending)).Reaches ls (.inside site'' (.value q ending')) ∧
          (site.enter frame').Grows site''

/-- A sign that closes a construct finds it, whatever was opened inside. -/
theorem Site.Grows.close {site site' : Site} {frame : Frame} {l : Lexeme}
    (grows : (site.enter frame).Grows site') (notSum : ∀ i a b, frame ≠ .summand i a b)
    (closer : l = .comma ∨ l = .rightParen ∨ l = .rightBrace) (p : Phrase) (ending : Ending) :
    ∃ q, ∀ offset t, feedWhole (site.enter frame) q offset l = some t →
      (State.inside site' (.value p ending)).feed offset l = .ok t := by
  refine ⟨(site'.settle p).2, fun offset t closes => ?_⟩
  have settled : (site'.settle p).1 = site.enter frame := by
    rw [grows.settle p p]
    cases frame with
    | summand i a b => exact absurd rfl (notSum i a b)
    | _ => rfl
  have step : (State.inside site' (.value p ending)).feed offset l =
      feedSettled site' p offset l := by
    rcases closer with rfl | rfl | rfl <;> rfl
  rw [step]
  simp only [feedSettled, settled, closes]

theorem Continues.sign (left : Continues ls) (right : Continues ks) (s : InfixSign) :
    Continues (ls ++ .sign s :: ks) := by
  intro site
  obtain ⟨site', p, ending, run, grows⟩ := left site
  obtain ⟨site'', q, ending', run', grows'⟩ := right { site' with chain := (p.expr, s) :: site'.chain }
  exact ⟨site'', q, ending', run.trans (.cons (fun _ => rfl) run'), grows.sign.trans grows'⟩

theorem Indexable.continues (operand : Indexable ls) : Continues ls := by
  intro site
  obtain ⟨site', p, ending, run, grows, -⟩ := operand site
  exact ⟨site', p, ending, run, grows⟩

/-- What stays where it was read. -/
theorem Indexable.of_plain (run : ∀ site : Site, ∃ p ending, ending ≠ .indexed ∧
    (State.inside site .operand).Reaches ls (.inside site (.value p ending))) : Indexable ls := by
  intro site
  obtain ⟨p, ending, plain, run⟩ := run site
  exact ⟨site, p, ending, run, .refl site, fun indexed => absurd indexed plain⟩

/-- An expression inside a construct that its closing sign makes something of. -/
theorem Continues.close {s : State} {site : Site} {frame : Frame} {l : Lexeme}
    (inner : Continues ks) (opening : s.Reaches ls (.inside (site.enter frame) .operand))
    (notSum : ∀ i a b, frame ≠ .summand i a b)
    (closer : l = .comma ∨ l = .rightParen ∨ l = .rightBrace) {m : Phrase → State}
    (closes : ∀ p offset, feedWhole (site.enter frame) p offset l = some (m p)) :
    ∃ p, s.Reaches (ls ++ ks ++ [l]) (m p) := by
  obtain ⟨site', p, ending, run, grows⟩ := inner (site.enter frame)
  obtain ⟨q, step⟩ := grows.close notSum closer p ending
  exact ⟨q, (opening.trans run).snoc fun offset => step offset _ (closes q offset)⟩

theorem Indexable.index (base : Indexable ls) (subscript : Continues ks) :
    Continues (ls ++ .index :: (ks ++ [.rightBrace])) := by
  intro site
  obtain ⟨site', p, ending, run, grows, inner⟩ := base site
  obtain ⟨around, p', step, since⟩ : ∃ around p', (∀ offset,
      (State.inside site' (.value p ending)).feed offset .index =
        .ok (.inside (around.enter (.subscript p')) .operand)) ∧ site.Grows around := by
    cases ending with
    | plain | braced => exact ⟨site', p, fun _ => rfl, grows⟩
    | indexed =>
      obtain ⟨i, a, b, outer, frames, top, since⟩ := inner rfl
      refine ⟨_, .plain (.sum i a b (Chain.join site'.chain p).expr), fun offset => ?_, since⟩
      change feedIndex site' p .indexed = _
      simp only [feedIndex, top]
  obtain ⟨q, closed⟩ : ∃ q, (State.inside site .operand).Reaches (ls ++ [.index] ++ ks ++ [.rightBrace])
      (.inside around (.value (p'.index q) .indexed)) :=
    subscript.close (run.snoc step) nofun (.inr (.inr rfl)) fun _ _ => rfl
  exact ⟨around, _, _, by simpa using closed, since⟩

/-- What a lexeme of a kind can be. -/
def Terminal.Covers (l : Lexeme) : Terminal → Prop
  | .number => ∃ whole fraction, l = .number whole fraction
  | .scalar => ∃ c, l = .scalar c
  | .callee => ∃ f, l = .callee f
  | .unary => ∃ s, l = .symbol (.unary s)
  | .binary => ∃ s, l = .symbol (.binary s)
  | .ternary => ∃ s, l = .symbol (.ternary s)
  | .vec => l = .symbol .vec
  | .sum => l = .symbol .sum
  | .equals => l = .equals
  | .index => l = .index
  | .newline => l = .newline
  | .endMark => l = .endMark
  | .leftParen => l = .leftParen
  | .rightParen => l = .rightParen
  | .leftBrace => l = .leftBrace
  | .rightBrace => l = .rightBrace
  | .sign s => l = .sign s
  | .comma => l = .comma
  | .control | .endOfText | .other _ => False

theorem Lexeme.covered {l : Lexeme} {t : Terminal} (same : l.terminal = t) : t.Covers l := by
  subst same
  cases l with
  | number => exact ⟨_, _, rfl⟩
  | scalar | callee => exact ⟨_, rfl⟩
  | symbol s =>
    cases s with
    | vec | sum => exact rfl
    | unary | binary | ternary => exact ⟨_, rfl⟩
  | _ => exact rfl

theorem Continues.items {frame : Frame} (item : Continues ks) (lists : frame.Lists) (site : Site)
    (grows : (site.enter frame).Grows site') (p : Phrase) (ending : Ending) :
    ∃ frame' site'' q ending', frame'.Lists ∧ frame' ≠ .group ∧
      (State.inside site' (.value p ending)).Reaches (.comma :: ks)
        (.inside site'' (.value q ending')) ∧ (site.enter frame').Grows site'' := by
  obtain ⟨q, step⟩ := grows.close (l := .comma) (by rintro i a b rfl; exact lists) (.inl rfl) p ending
  obtain ⟨frame', lists', further, opens⟩ : ∃ frame' : Frame, frame'.Lists ∧ frame' ≠ .group ∧
      ∀ offset, feedWhole (site.enter frame) q offset .comma =
        some (.inside (site.enter frame') .operand) := by
    cases frame with
    | group => exact ⟨.second q.expr, trivial, nofun, fun _ => rfl⟩
    | second a => exact ⟨.later a q.expr [], trivial, nofun, fun _ => rfl⟩
    | later a b others => exact ⟨.later a b (q.expr :: others), trivial, nofun, fun _ => rfl⟩
    | _ => exact lists.elim
  obtain ⟨site'', r, ending', run, grows'⟩ := item (site.enter frame')
  exact ⟨frame', site'', r, ending', lists', further,
    .cons (fun offset => step offset _ (opens offset)) run, grows'⟩

theorem Indexable.parenthesised (inner : Continues ks) :
    Indexable (.leftParen :: (ks ++ [.rightParen])) := by
  refine .of_plain fun site => ?_
  obtain ⟨p, run⟩ := inner.close (Reads.group.run site) nofun (.inr (.inl rfl))
    (m := fun p => .inside site (.value (.plain p.expr) .plain)) fun _ _ => rfl
  exact ⟨_, .plain, nofun, run⟩

theorem Indexable.call (f : Char) (inner : Continues ks) :
    Indexable (.callee f :: .leftParen :: (ks ++ [.rightParen])) := by
  refine .of_plain fun site => ?_
  obtain ⟨p, run⟩ := inner.close (Reads.argument.run site) nofun (.inr (.inl rfl))
    (m := fun p => .inside site (.value (.call f p) .plain)) fun _ _ => rfl
  exact ⟨_, .plain, nofun, run⟩

theorem Indexable.vector (first : Continues ls) (others : Category.items.Runs ks) :
    Indexable (.leftParen :: (ls ++ (ks ++ [.rightParen]))) := by
  refine .of_plain fun site => ?_
  obtain ⟨site', p, ending, run, grows⟩ := first (site.enter .group)
  obtain ⟨frame, site'', q, ending', lists, further, run', grows'⟩ :=
    others site .group site' p ending trivial grows
  obtain ⟨r, step⟩ := grows'.close (l := .rightParen) (by rintro i a b rfl; exact lists)
    (.inr (.inl rfl)) q ending'
  obtain ⟨e, closes⟩ : ∃ e, ∀ offset, feedWhole (site.enter frame) r offset .rightParen =
      some (.inside site (.value (.plain e) .plain)) := by
    cases frame with
    | group => exact absurd rfl further
    | second a => exact ⟨_, fun _ => rfl⟩
    | later a b others => exact ⟨_, fun _ => rfl⟩
    | _ => exact lists.elim
  refine ⟨.plain e, .plain, nofun, .cons (fun _ => rfl) ?_⟩
  exact run.trans (run'.trans (.single fun offset => step offset _ (closes offset)))

theorem Indexable.summation (i : Identifier) (start : Continues as) (bound : Continues bs)
    (summand : Continues es) :
    Indexable (.symbol .sum :: .leftBrace :: (i.lexemes ++ .equals :: (as ++
      .rightBrace :: .sign .power :: .leftBrace :: (bs ++ .rightBrace :: es)))) := by
  intro site
  obtain ⟨p, first⟩ : ∃ p, (State.inside site .operand).Reaches
      (.symbol .sum :: .leftBrace :: i.lexemes ++ [.equals] ++ as ++ [.rightBrace])
      (.inside site (.sumCaret i p.expr)) :=
    start.close ((Reads.start (i := i)).run site) nofun (.inr (.inr rfl)) fun _ _ => rfl
  have caret := (first.snoc (l := .sign .power) (u := .inside site (.sumBound i p.expr))
    fun _ => rfl).snoc (l := .leftBrace) (u := .inside (site.enter (.bound i p.expr)) .operand)
    fun _ => rfl
  obtain ⟨q, second⟩ := bound.close caret nofun (.inr (.inr rfl))
    (m := fun q => .inside (site.enter (.summand i p.expr q.expr)) .operand) fun _ _ => rfl
  obtain ⟨site', r, ending, last, grows⟩ := summand (site.enter (.summand i p.expr q.expr))
  refine ⟨site', r, ending, by simpa using second.trans last, ?_, fun _ => grows.summand⟩
  exact (Site.Grows.enter (.refl site)).trans grows

theorem Continues.operand (inner : Continues ls) :
    Category.operand.Runs (.leftBrace :: (ls ++ [.rightBrace])) := by
  intro site a first
  have opening : (State.inside site (.operandBrace a first)).Reaches [.leftBrace]
      (.inside (site.enter (.operand a)) .operand) := .single fun _ => rfl
  obtain ⟨p, run⟩ := inner.close opening nofun (.inr (.inr rfl))
    (m := fun p => .supplied site a p.expr) fun p _ => by
      simp only [feedWhole, Site.enter, State.supplied]
      cases a.supply p.expr <;> rfl
  exact ⟨p.expr, run⟩

/-- A symbol with the operands that it needs. -/
theorem Indexable.applied {l : Lexeme} {a : Application} (row : List (List Lexeme))
    (symbol : ∀ site offset, (State.inside site .operand).feed offset l =
      .ok (.inside site (.operandBrace a true)))
    (enough : a.due = row.length) (operands : ∀ ks ∈ row, Category.operand.Runs ks) :
    Indexable (l :: row.flatten) := by
  refine .of_plain fun site => ?_
  have last : ∀ (a : Application) first (row : List (List Lexeme)), a.due = row.length →
      (∀ ks ∈ row, Category.operand.Runs ks) →
      ∃ e, (State.inside site (.operandBrace a first)).Reaches row.flatten
        (.inside site (.value (.plain e) .braced)) := by
    intro a first row enough operands
    induction row generalizing a first with
    | nil => cases a <;> cases enough
    | cons ks row ih =>
      obtain ⟨e, run⟩ := operands ks (by simp) site a first
      cases supplied : a.supply e with
      | inl a' =>
        rw [State.supplied, supplied] at run
        obtain ⟨e', rest⟩ := ih a' false (by simpa [Application.due_of_inl supplied] using enough)
          fun us member => operands us (by simp [member])
        exact ⟨e', run.trans rest⟩
      | inr e' =>
        rw [State.supplied, supplied] at run
        obtain rfl : row = [] := by simpa [Application.due_of_inr supplied] using enough
        exact ⟨e', by simpa using run⟩
  obtain ⟨e, run⟩ := last a true row enough operands
  exact ⟨.plain e, .braced, nofun, .cons (symbol site) run⟩

def Category.Spells (row : ContextFreeGrammar.Row Terminal Category) (ls : List Lexeme) : Prop :=
  expressionGrammar.Spells Lexeme.terminal (fun n ls => Category.Runs ls n) row ls

theorem Category.Spells.unit {n : Category} (spells : Category.Spells [.nonterminal n] ls) :
    n.Runs ls := by
  obtain ⟨us, _, rfl, run, rfl⟩ := spells
  simpa using run

theorem Category.Spells.sign {n m : Category} {s : InfixSign}
    (spells : Category.Spells [.nonterminal n, .terminal (.sign s), .nonterminal m] ls) :
    ∃ us vs, ls = us ++ .sign s :: vs ∧ n.Runs us ∧ m.Runs vs := by
  obtain ⟨us, _, rfl, left, l, ks, rfl, same, right⟩ := spells
  obtain rfl : l = .sign s := Lexeme.covered same
  exact ⟨us, ks, rfl, left, Category.Spells.unit right⟩

/-- Every rule of the grammar keeps the reader going. -/
theorem Category.Spells.runs {n : Category} {row : ContextFreeGrammar.Row Terminal Category}
    (member : row ∈ n.alternatives) (spells : Category.Spells row ls) : n.Runs ls := by
  cases n with
  | expression =>
    obtain rfl := List.mem_singleton.mp member
    exact spells.unit
  | sum =>
    rcases List.mem_cons.mp member with rfl | member
    · exact spells.unit
    rcases List.mem_cons.mp member with rfl | member
    · obtain ⟨us, vs, rfl, left, right⟩ := spells.sign
      exact Continues.sign left right _
    · obtain rfl := List.mem_singleton.mp member
      obtain ⟨us, vs, rfl, left, right⟩ := spells.sign
      exact Continues.sign left right _
  | product =>
    rcases List.mem_cons.mp member with rfl | member
    · exact spells.unit
    rcases List.mem_cons.mp member with rfl | member
    · obtain ⟨us, vs, rfl, left, right⟩ := spells.sign
      exact Continues.sign left right _
    · obtain rfl := List.mem_singleton.mp member
      obtain ⟨us, vs, rfl, left, right⟩ := spells.sign
      exact Continues.sign left right _
  | power =>
    rcases List.mem_cons.mp member with rfl | member
    · exact spells.unit
    · obtain rfl := List.mem_singleton.mp member
      obtain ⟨us, vs, rfl, left, right⟩ := spells.sign
      exact Continues.sign left right _
  | indexed =>
    rcases List.mem_cons.mp member with rfl | member
    · exact Indexable.continues (Category.Spells.unit (n := .primary) spells)
    · obtain rfl := List.mem_singleton.mp member
      obtain ⟨us, _, rfl, base, l, _, rfl, mark, ks, _, rfl, subscript, k, _, rfl, brace, rfl⟩ := spells
      obtain rfl : l = .index := Lexeme.covered mark
      obtain rfl : k = .rightBrace := Lexeme.covered brace
      exact Indexable.index base subscript
  | primary =>
    rcases List.mem_cons.mp member with rfl | member
    · obtain ⟨l, _, rfl, opening, ks, _, rfl, inner, k, _, rfl, closing, rfl⟩ := spells
      obtain rfl : l = .leftParen := Lexeme.covered opening
      obtain rfl : k = .rightParen := Lexeme.covered closing
      exact Indexable.parenthesised inner
    · simp only [List.mem_cons, List.not_mem_nil, or_false] at member
      rcases member with rfl | rfl | rfl | rfl | rfl <;> exact spells.unit
  | call =>
    obtain rfl := List.mem_singleton.mp member
    obtain ⟨l, _, rfl, callee, k, _, rfl, opening, ks, _, rfl, inner, j, _, rfl, closing, rfl⟩ := spells
    obtain ⟨f, rfl⟩ := Lexeme.covered callee
    obtain rfl : k = .leftParen := Lexeme.covered opening
    obtain rfl : j = .rightParen := Lexeme.covered closing
    exact Indexable.call f inner
  | variableUse =>
    obtain rfl := List.mem_singleton.mp member
    obtain ⟨i, rfl⟩ := spells.unit
    exact .of_plain fun site => ⟨_, .plain, nofun, Reads.identifier.run site⟩
  | number =>
    obtain rfl := List.mem_singleton.mp member
    obtain ⟨l, _, rfl, number, rfl⟩ := spells
    obtain ⟨whole, fraction, rfl⟩ := Lexeme.covered number
    exact .of_plain fun site => ⟨_, .plain, nofun, Reads.number.run site⟩
  | vector =>
    obtain rfl := List.mem_singleton.mp member
    obtain ⟨l, _, rfl, opening, ks, _, rfl, first, us, _, rfl, others, k, _, rfl, closing, rfl⟩ := spells
    obtain rfl : l = .leftParen := Lexeme.covered opening
    obtain rfl : k = .rightParen := Lexeme.covered closing
    exact Indexable.vector first others
  | items =>
    rcases List.mem_cons.mp member with rfl | member
    · obtain ⟨l, _, rfl, comma, item⟩ := spells
      obtain rfl : l = .comma := Lexeme.covered comma
      intro site frame site' p ending lists grows
      exact Continues.items (Category.Spells.unit item) lists site grows p ending
    · obtain rfl := List.mem_singleton.mp member
      obtain ⟨us, _, rfl, before, l, _, rfl, comma, item⟩ := spells
      obtain rfl : l = .comma := Lexeme.covered comma
      intro site frame site' p ending lists grows
      obtain ⟨frame₁, site₁, p₁, ending₁, lists₁, -, run₁, grows₁⟩ :=
        before site frame site' p ending lists grows
      obtain ⟨frame₂, site₂, p₂, ending₂, lists₂, further, run₂, grows₂⟩ :=
        Continues.items (Category.Spells.unit item) lists₁ site grows₁ p₁ ending₁
      exact ⟨frame₂, site₂, p₂, ending₂, lists₂, further, run₁.trans run₂, grows₂⟩
  | identifier =>
    rcases List.mem_cons.mp member with rfl | member
    · obtain ⟨l, _, rfl, scalar, rfl⟩ := spells
      obtain ⟨c, rfl⟩ := Lexeme.covered scalar
      exact ⟨.scalar c, rfl⟩
    · obtain rfl := List.mem_singleton.mp member
      obtain ⟨c, rfl⟩ := spells.unit
      exact ⟨.vector c, rfl⟩
  | vectorIdentifier =>
    obtain rfl := List.mem_singleton.mp member
    obtain ⟨l, _, rfl, vec, k, _, rfl, opening, j, _, rfl, scalar, h, _, rfl, closing, rfl⟩ := spells
    obtain rfl : l = .symbol .vec := Lexeme.covered vec
    obtain rfl : k = .leftBrace := Lexeme.covered opening
    obtain ⟨c, rfl⟩ := Lexeme.covered scalar
    obtain rfl : h = .rightBrace := Lexeme.covered closing
    exact ⟨c, rfl⟩
  | symbolic =>
    rcases List.mem_cons.mp member with rfl | member
    · obtain ⟨l, _, rfl, unary, us, _, rfl, first, rfl⟩ := spells
      obtain ⟨s, rfl⟩ := Lexeme.covered unary
      exact Indexable.applied (a := .unary s) [us] (fun _ _ => rfl) rfl (by simpa using first)
    rcases List.mem_cons.mp member with rfl | member
    · obtain ⟨l, _, rfl, binary, us, _, rfl, first, vs, _, rfl, second, rfl⟩ := spells
      obtain ⟨s, rfl⟩ := Lexeme.covered binary
      exact Indexable.applied (a := .binary s) [us, vs] (fun _ _ => rfl) rfl
        (by simpa using ⟨first, second⟩)
    rcases List.mem_cons.mp member with rfl | member
    · obtain ⟨l, _, rfl, ternary, us, _, rfl, first, vs, _, rfl, second, ws, _, rfl, third, rfl⟩ :=
        spells
      obtain ⟨s, rfl⟩ := Lexeme.covered ternary
      exact Indexable.applied (a := .ternary s) [us, vs, ws] (fun _ _ => rfl) rfl
        (by simpa using ⟨first, second, third⟩)
    · obtain rfl := List.mem_singleton.mp member
      obtain ⟨l₁, _, rfl, sum, l₂, _, rfl, header, is, _, rfl, id, l₃, _, rfl, equals, us, _, rfl, start,
        l₄, _, rfl, startEnd, l₅, _, rfl, caret, l₆, _, rfl, brace, vs, _, rfl, bound,
        l₇, _, rfl, boundEnd, summand⟩ := spells
      obtain rfl : l₁ = .symbol .sum := Lexeme.covered sum
      obtain rfl : l₂ = .leftBrace := Lexeme.covered header
      obtain ⟨i, rfl⟩ := id
      obtain rfl : l₃ = .equals := Lexeme.covered equals
      obtain rfl : l₄ = .rightBrace := Lexeme.covered startEnd
      obtain rfl : l₅ = .sign .power := Lexeme.covered caret
      obtain rfl : l₆ = .leftBrace := Lexeme.covered brace
      obtain rfl : l₇ = .rightBrace := Lexeme.covered boundEnd
      exact Indexable.summation i start bound (Category.Spells.unit summand)
  | operand =>
    obtain rfl := List.mem_singleton.mp member
    obtain ⟨l, _, rfl, opening, ks, _, rfl, inner, k, _, rfl, closing, rfl⟩ := spells
    obtain rfl : l = .leftBrace := Lexeme.covered opening
    obtain rfl : k = .rightBrace := Lexeme.covered closing
    exact Continues.operand inner

theorem Category.runs_closed :
    expressionGrammar.Closed Lexeme.terminal (fun n ls => Category.Runs ls n) :=
  fun _ member _ spells => Category.Spells.runs (mem_expressionGrammar.mp member) spells

theorem Category.Derives.runs {n : Category} (word : n.Derives ls) : n.Runs ls :=
  Category.Spells.unit (Category.runs_closed.spells word)

theorem ReadsClause.formula (clause : ReadsClause .formula ks c) : ∃ p, Reads ks (.whole p) := by
  cases clause with
  | expression whole => exact ⟨_, whole⟩
  | declaration declares => exact absurd rfl declares

/-- Where the reader gets to the end of what a derivation leads to, the rules read it. -/
theorem Continues.reads (continues : Continues ls) : ∃ p, Reads ls (.whole p) := by
  obtain ⟨site, p, ending, run, grows⟩ := continues (.atStart .formula [])
  have start : SiteReads .formula (.atStart .formula []) [] :=
    ⟨rfl, [], [], [], rfl, .start, .first, .base .chainNil⟩
  have held := run.reads (.place start)
  have outside : (site.settle p).1 = .atStart .formula [] := grows.settle p p
  generalize same : [] ++ ls = ws at held
  cases held with
  | inside sited leads =>
    obtain ⟨us, vs, split, settled, whole⟩ := sited.settle leads
    rw [outside] at settled
    obtain ⟨as, bs, parts, done, clause⟩ := settled.clause rfl rfl whole
    obtain ⟨q, read⟩ := clause.formula
    obtain ⟨n, rfl⟩ := done.newlines
    have all : ls = newlines n ++ bs := by
      rw [← parts, ← split, ← same]
      rfl
    cases n with
    | zero => exact ⟨q, all ▸ read⟩
    | succ n =>
      -- The place of an operand takes no newline.
      rw [all] at run
      cases run with
      | cons step => exact nomatch step 0

/-- The rules give a reading exactly to the words of the grammar. -/
theorem exists_reads_iff (ls : List Lexeme) :
    (∃ p, Reads ls (.whole p)) ↔ Category.Derives .expression ls := by
  constructor
  · rintro ⟨p, read⟩
    exact read.derives
  · intro word
    exact Continues.reads word.runs

end Formulary
