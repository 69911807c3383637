import Formulary.Terminal
import Mathlib.Computability.ContextFreeGrammar

/-! The notation as a context-free grammar over the kinds of token, and what a derivation says about
the rows of things whose kinds it derives. -/
namespace ContextFreeGrammar

/-- What a nonterminal can stand for in one step. -/
abbrev Row (T N : Type*) := List (Symbol T N)

variable {T α : Type*} {g : ContextFreeGrammar T} {kind : α → T}
variable {words : g.NT → List α → Prop}

/-- The rows of things that symbols stand for, with given words for the nonterminals. -/
def Spells (kind : α → T) (words : g.NT → List α → Prop) :
    Row T g.NT → List α → Prop
  | [], as => as = []
  | .terminal t :: ss, as => ∃ b bs, as = b :: bs ∧ kind b = t ∧ Spells kind words ss bs
  | .nonterminal n :: ss, as => ∃ bs cs, as = bs ++ cs ∧ words n bs ∧ Spells kind words ss cs

/-- Words that hold whatever a rule makes of them. -/
def Closed (kind : α → T) (words : g.NT → List α → Prop) : Prop :=
  ∀ r ∈ g.rules, ∀ as, Spells kind words r.output as → words r.input as

theorem spells_append {ss us : Row T g.NT} {as : List α} :
    Spells kind words (ss ++ us) as ↔
      ∃ bs cs, as = bs ++ cs ∧ Spells kind words ss bs ∧ Spells kind words us cs := by
  induction ss generalizing as with
  | nil => simp [Spells]
  | cons s ss ih =>
    cases s with
    | terminal t =>
      constructor
      · rintro ⟨b, bs, rfl, same, rest⟩
        obtain ⟨cs, ds, rfl, first, last⟩ := ih.mp rest
        exact ⟨b :: cs, ds, rfl, ⟨b, cs, rfl, same, first⟩, last⟩
      · rintro ⟨_, ds, rfl, ⟨b, cs, rfl, same, first⟩, last⟩
        exact ⟨b, cs ++ ds, rfl, same, ih.mpr ⟨cs, ds, rfl, first, last⟩⟩
    | nonterminal n =>
      constructor
      · rintro ⟨bs, _, rfl, word, rest⟩
        obtain ⟨cs, ds, rfl, first, last⟩ := ih.mp rest
        exact ⟨bs ++ cs, ds, by simp, ⟨bs, cs, rfl, word, first⟩, last⟩
      · rintro ⟨_, ds, rfl, ⟨bs, cs, rfl, word, first⟩, last⟩
        exact ⟨bs, cs ++ ds, by simp, word, ih.mpr ⟨cs, ds, rfl, first, last⟩⟩

theorem spells_terminals (as : List α) :
    Spells kind words ((as.map kind).map .terminal) as := by
  induction as with
  | nil => rfl
  | cons a as ih => exact ⟨a, as, rfl, rfl, ih⟩

/-- Whatever closed words are taken, a derivation does not leave them. -/
theorem Closed.spells (closed : Closed kind words) {ss : Row T g.NT} {as : List α}
    (derivation : g.Derives ss ((as.map kind).map .terminal)) : Spells kind words ss as := by
  induction derivation using Relation.ReflTransGen.head_induction_on with
  | refl => exact spells_terminals as
  | head step _ ih =>
    obtain ⟨r, member, rewrites⟩ := step
    obtain ⟨p, q, rfl, rfl⟩ := rewrites.exists_parts
    obtain ⟨bs, cs, rfl, first, last⟩ := spells_append.mp ih
    obtain ⟨ds, es, rfl, before, output⟩ := spells_append.mp first
    have input : Spells kind words [.nonterminal r.input] es :=
      ⟨es, [], by simp, closed r member es output, rfl⟩
    exact spells_append.mpr ⟨ds ++ es, cs, rfl, spells_append.mpr ⟨ds, es, rfl, before, input⟩, last⟩

/-- What a nonterminal derives, told by the kinds of a row of things. -/
def Derivable (g : ContextFreeGrammar T) (kind : α → T) (n : g.NT) (as : List α) : Prop :=
  g.Derives [.nonterminal n] ((as.map kind).map .terminal)

theorem derives_of_spells {ss : Row T g.NT} {as : List α}
    (spells : Spells kind (g.Derivable kind) ss as) :
    g.Derives ss ((as.map kind).map .terminal) := by
  induction ss generalizing as with
  | nil =>
    obtain rfl : as = [] := spells
    exact .refl _
  | cons s ss ih =>
    cases s with
    | terminal t =>
      obtain ⟨b, bs, rfl, rfl, rest⟩ := spells
      simpa using (ih rest).append_left [.terminal (kind b)]
    | nonterminal n =>
      obtain ⟨bs, cs, rfl, word, rest⟩ := spells
      have first : g.Derives ([.nonterminal n] ++ ss) (((bs.map kind).map .terminal) ++ ss) :=
        Derives.append_right word ss
      have last := (ih rest).append_left ((bs.map kind).map .terminal)
      simpa using first.trans last

theorem Derivable.rule {n : g.NT} {output : Row T g.NT} {as : List α}
    (member : ⟨n, output⟩ ∈ g.rules) (spells : Spells kind (g.Derivable kind) output as) :
    g.Derivable kind n as := by
  have step : g.Produces [.nonterminal n] output :=
    ⟨⟨n, output⟩, member, ContextFreeRule.Rewrites.input_output⟩
  exact step.trans_derives (derives_of_spells spells)

theorem mem_of_spells {A : Set T} {ss : Row T g.NT} {as : List T}
    (terminals : ∀ x ∈ ss, ∀ t, x = .terminal t → t ∈ A)
    (spells : Spells id (fun (_ : g.NT) as => ∀ t ∈ as, t ∈ A) ss as) : ∀ t ∈ as, t ∈ A := by
  induction ss generalizing as with
  | nil =>
    obtain rfl : as = [] := spells
    nofun
  | cons x ss ih =>
    obtain ⟨first, later⟩ := List.forall_mem_cons.mp terminals
    cases x with
    | terminal t =>
      obtain ⟨b, bs, rfl, rfl, rest⟩ := spells
      exact List.forall_mem_cons.mpr ⟨first b rfl, ih later rest⟩
    | nonterminal n =>
      obtain ⟨bs, cs, rfl, word, rest⟩ := spells
      exact List.forall_mem_append.mpr ⟨word, ih later rest⟩

/-- The words of a grammar hold no other terminals than its rules. -/
theorem mem_of_mem_language {A : Set T} (terminals : ∀ r ∈ g.rules, ∀ x ∈ r.output, ∀ t,
    x = .terminal t → t ∈ A) {w : List T} (member : w ∈ g.language) : ∀ t ∈ w, t ∈ A := by
  have closed : Closed id fun (_ : g.NT) as => ∀ t ∈ as, t ∈ A :=
    fun r rule as spells => mem_of_spells (terminals r rule) spells
  have derivation : g.Derives [.nonterminal g.initial] ((w.map id).map .terminal) := by
    rw [List.map_id]
    exact member
  obtain ⟨bs, cs, rfl, word, rfl⟩ := closed.spells derivation
  rw [List.append_nil]
  exact word

end ContextFreeGrammar

namespace Formulary

/-- The nonterminals. `items` are the further items of a vector. -/
inductive Category where
  | expression | sum | product | power | indexed | primary
  | call | variableUse | number | vector | items
  | identifier | vectorIdentifier
  | symbolic | operand
deriving DecidableEq, Repr

namespace Category

def all : List Category :=
  [.expression, .sum, .product, .power, .indexed, .primary, .call, .variableUse, .number, .vector,
    .items, .identifier, .vectorIdentifier, .symbolic, .operand]

theorem mem_all (n : Category) : n ∈ all := by cases n <;> decide

def alternatives : Category → List (ContextFreeGrammar.Row Terminal Category)
  | .expression => [[.nonterminal .sum]]
  | .sum => [
      [.nonterminal .product],
      [.nonterminal .sum, .terminal (.sign .plus), .nonterminal .product],
      [.nonterminal .sum, .terminal (.sign .minus), .nonterminal .product]]
  | .product => [
      [.nonterminal .power],
      [.nonterminal .product, .terminal (.sign .times), .nonterminal .power],
      [.nonterminal .product, .terminal (.sign .divide), .nonterminal .power]]
  | .power => [
      [.nonterminal .indexed],
      [.nonterminal .power, .terminal (.sign .power), .nonterminal .indexed]]
  | .indexed => [
      [.nonterminal .primary],
      [.nonterminal .primary, .terminal .index, .nonterminal .expression, .terminal .rightBrace]]
  | .primary => [
      [.terminal .leftParen, .nonterminal .expression, .terminal .rightParen],
      [.nonterminal .call], [.nonterminal .variableUse], [.nonterminal .number],
      [.nonterminal .vector], [.nonterminal .symbolic]]
  | .call => [
      [.terminal .callee, .terminal .leftParen, .nonterminal .expression, .terminal .rightParen]]
  | .variableUse => [[.nonterminal .identifier]]
  | .number => [[.terminal .number]]
  | .vector => [
      [.terminal .leftParen, .nonterminal .expression, .nonterminal .items, .terminal .rightParen]]
  | .items => [
      [.terminal .comma, .nonterminal .expression],
      [.nonterminal .items, .terminal .comma, .nonterminal .expression]]
  | .identifier => [[.terminal .scalar], [.nonterminal .vectorIdentifier]]
  | .vectorIdentifier => [
      [.terminal .vec, .terminal .leftBrace, .terminal .scalar, .terminal .rightBrace]]
  | .symbolic => [
      [.terminal .unary, .nonterminal .operand],
      [.terminal .binary, .nonterminal .operand, .nonterminal .operand],
      [.terminal .ternary, .nonterminal .operand, .nonterminal .operand, .nonterminal .operand],
      [.terminal .sum, .terminal .leftBrace, .nonterminal .identifier, .terminal .equals,
        .nonterminal .expression, .terminal .rightBrace, .terminal (.sign .power),
        .terminal .leftBrace, .nonterminal .expression, .terminal .rightBrace,
        .nonterminal .expression]]
  | .operand => [[.terminal .leftBrace, .nonterminal .expression, .terminal .rightBrace]]

def rules : List (ContextFreeRule Terminal Category) :=
  all.flatMap fun n => n.alternatives.map (⟨n, ·⟩)

theorem mem_rules {r : ContextFreeRule Terminal Category} :
    r ∈ rules ↔ r.output ∈ r.input.alternatives := by
  simp only [rules, List.mem_flatMap, List.mem_map]
  constructor
  · rintro ⟨n, -, output, member, rfl⟩
    exact member
  · intro member
    exact ⟨r.input, mem_all _, r.output, member, rfl⟩

end Category

/-- What an expression is, derived rule by rule. Several derivations may lead to one word: the summand
of a sum can end before the text around it does. -/
def expressionGrammar : ContextFreeGrammar Terminal where
  NT := Category
  initial := .expression
  rules := Category.rules.toFinset

theorem mem_expressionGrammar {r : ContextFreeRule Terminal Category} :
    r ∈ expressionGrammar.rules ↔ r.output ∈ r.input.alternatives :=
  List.mem_toFinset.trans Category.mem_rules

end Formulary
