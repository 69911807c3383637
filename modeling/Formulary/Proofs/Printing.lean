import Formulary.Proofs.Numerals
import Formulary.Proofs.Shape

/-! A printer, and the lexemes of what it prints. Parentheses stand only around operands and bases that
would be read differently without them; a sum goes on as far as it can, so that it has them wherever
something may follow it. -/
namespace Formulary

/-- How tightly a sign binds. -/
def InfixSign.tier : InfixSign → Nat
  | .power => 3
  | .times | .divide => 2
  | .plus | .minus => 1

def Identifier.text : Identifier → List Char
  | .scalar c => [c]
  | .vector c => (Lexeme.symbol .vec).text ++ ['{', c, '}']

def parenthesised (needed : Bool) (text : List Char) : List Char :=
  if needed then '(' :: text ++ [')'] else text

namespace Expression

/-- All that is not infix binds tighter than any sign. -/
def tier : Expression → Nat
  | .sign s _ _ => s.tier
  | _ => 4

def isSum : Expression → Bool
  | .sum _ _ _ _ => true
  | _ => false

/-- Whether an expression has parentheses to the left of a sign. -/
def looseLeft (s : InfixSign) (e : Expression) : Bool := e.tier < s.tier || e.isSum

/-- Whether an expression has parentheses to the right of a sign. -/
def looseRight (s : InfixSign) (e : Expression) : Bool := e.tier ≤ s.tier || e.isSum

/-- Whether an expression has parentheses before an index. -/
def looseBase : Expression → Bool
  | .sign _ _ _ | .index _ _ | .sum _ _ _ _ => true
  | _ => false

mutual

def text (n : Numerals) : Expression → List Char
  | .number x => (Lexeme.number (n.whole x) (n.fraction x)).text
  | .variable i => i.text
  | .call f a => [f, '('] ++ a.text n ++ [')']
  | .vector a b others => ['('] ++ a.text n ++ [','] ++ b.text n ++ textItems n others ++ [')']
  | .sign s a b => parenthesised (a.looseLeft s) (a.text n) ++ [' ', s.character] ++
      ' ' :: parenthesised (b.looseRight s) (b.text n)
  | .index a b => parenthesised a.looseBase (a.text n) ++ ['_', '{'] ++ b.text n ++ ['}']
  | .unary s a => (Lexeme.symbol (.unary s)).text ++ ['{'] ++ a.text n ++ ['}']
  | .binary s a b =>
    (Lexeme.symbol (.binary s)).text ++ ['{'] ++ a.text n ++ ['}', '{'] ++ b.text n ++ ['}']
  | .ternary s a b c => (Lexeme.symbol (.ternary s)).text ++ ['{'] ++ a.text n ++ ['}', '{'] ++
      b.text n ++ ['}', '{'] ++ c.text n ++ ['}']
  | .sum i a b c => (Lexeme.symbol .sum).text ++ ['{'] ++ i.text ++ ['='] ++ a.text n ++
      ['}', '^', '{'] ++ b.text n ++ ['}'] ++ c.text n

def textItems (n : Numerals) : List Expression → List Char
  | [] => []
  | e :: es => [','] ++ e.text n ++ textItems n es

end

end Expression

def Head.text : Head → List Char
  | .name i => i.text
  | .applied f p => [f, '('] ++ p.text ++ [')']
  | .mapped f p i => [f, '('] ++ (Identifier.vector p).text ++ [')'] ++ ['_', '{'] ++ [i] ++ ['}']

def Statement.text (n : Numerals) : Statement → List Char
  | .expression e => e.text n
  | .declaration head body => head.text ++ [' ', '='] ++ ' ' :: body.text n

/-- A sheet has a statement on each line. -/
def Sheet.text (n : Numerals) (sheet : Sheet) : List Char :=
  ['\n'].intercalate (sheet.map (Statement.text n))

/-! The lexemes of what is printed. -/

def enclosed (needed : Bool) (ls : List Lexeme) : List Lexeme :=
  if needed then [.leftParen] ++ ls ++ [.rightParen] else ls

namespace Expression

mutual

def lexemes (n : Numerals) : Expression → List Lexeme
  | .number x => [.number (n.whole x) (n.fraction x)]
  | .variable i => i.lexemes
  | .call f a => [.callee f, .leftParen] ++ a.lexemes n ++ [.rightParen]
  | .vector a b others => [.leftParen] ++ a.lexemes n ++ [.comma] ++ b.lexemes n ++
      lexemesItems n others ++ [.rightParen]
  | .sign s a b => enclosed (a.looseLeft s) (a.lexemes n) ++ [.sign s] ++
      enclosed (b.looseRight s) (b.lexemes n)
  | .index a b => enclosed a.looseBase (a.lexemes n) ++ [.index] ++ b.lexemes n ++ [.rightBrace]
  | .unary s a => [.symbol (.unary s), .leftBrace] ++ a.lexemes n ++ [.rightBrace]
  | .binary s a b => [.symbol (.binary s), .leftBrace] ++ a.lexemes n ++
      [.rightBrace, .leftBrace] ++ b.lexemes n ++ [.rightBrace]
  | .ternary s a b c => [.symbol (.ternary s), .leftBrace] ++ a.lexemes n ++
      [.rightBrace, .leftBrace] ++ b.lexemes n ++ [.rightBrace, .leftBrace] ++ c.lexemes n ++
      [.rightBrace]
  | .sum i a b c => .symbol .sum :: .leftBrace :: i.lexemes ++ [.equals] ++ a.lexemes n ++
      [.rightBrace, .sign .power, .leftBrace] ++ b.lexemes n ++ [.rightBrace] ++ c.lexemes n

def lexemesItems (n : Numerals) : List Expression → List Lexeme
  | [] => []
  | e :: es => [.comma] ++ e.lexemes n ++ lexemesItems n es

end

end Expression

def Head.lexemes : Head → List Lexeme
  | .name i => i.lexemes
  | .applied f p => [.callee f, .leftParen] ++ p.lexemes ++ [.rightParen]
  | .mapped f p i => [.callee f, .leftParen] ++ (Identifier.vector p).lexemes ++ [.rightParen] ++
      [.index] ++ [.scalar i] ++ [.rightBrace]

def Statement.lexemes (n : Numerals) : Statement → List Lexeme
  | .expression e => e.lexemes n
  | .declaration head body => head.lexemes ++ [.equals] ++ body.lexemes n

/-- The lexemes of a sheet with a newline behind each statement. -/
def Sheet.lexemes (n : Numerals) (sheet : Sheet) : List Lexeme :=
  sheet.flatMap fun s => s.lexemes n ++ [.newline]

/-- The lexemes of a text, whatever follows it. -/
def Delimited (text : List Char) (ls : List Lexeme) : Prop :=
  ∀ b z, Scans b (text ++ z) ls false z

/-- A text that goes on with no number and calls no name before it. -/
def Stops (z : List Char) : Prop :=
  ∀ c ∈ z.head?, isDigit c = false ∧ c ≠ '.' ∧ c ≠ '('

/-- The lexemes of a text that may end with a number or a name. -/
def Bare (text : List Char) (ls : List Lexeme) : Prop :=
  ∀ b z, Stops z → Scans b (text ++ z) ls false z

variable {u v : List Char} {ls ks : List Lexeme} {l : Lexeme}

theorem Stops.number {z : List Char} (stops : Stops z) (whole fraction : List Char) :
    (Lexeme.number whole fraction).EndsBefore z := by
  refine ⟨fun c first => (stops c first).1, ?_⟩
  rintro - c cs rfl
  exact absurd rfl (stops '.' rfl).2.1

theorem Stops.scalar {z : List Char} (stops : Stops z) (c : Char) :
    (Lexeme.scalar c).EndsBefore z := by
  intro called
  exact absurd rfl (stops '(' called).2.2

theorem stops_of_follows (follow : follows l = true) (z : List Char) : Stops (l.text ++ z) := by
  intro c first
  cases l with
  | sign s =>
    obtain rfl : s.character = c := Option.some.inj first
    cases s <;> decide
  | index | equals | newline | rightParen | rightBrace | comma =>
    obtain rfl := Option.some.inj first
    decide
  | _ => cases follow

theorem ends_of_follows (follow : follows l = true) (z : List Char) : l.EndsBefore z := by
  cases l with
  | sign | index | equals | newline | rightParen | rightBrace | comma => exact trivial
  | _ => cases follow

theorem spelt_of_follows (follow : follows l = true) : l.Spelt := by
  cases l with
  | sign | index | equals | newline | rightParen | rightBrace | comma => exact trivial
  | _ => cases follow

namespace Delimited

theorem bare (first : Delimited u ls) : Bare u ls := fun b z _ => first b z

theorem append (first : Delimited u ls) (last : Delimited v ks) :
    Delimited (u ++ v) (ls ++ ks) := by
  intro b z
  rw [List.append_assoc]
  exact (first b _).trans (last false z)

theorem before (first : Delimited u ls) (last : Bare v ks) : Bare (u ++ v) (ls ++ ks) := by
  intro b z stops
  rw [List.append_assoc]
  exact (first b _).trans (last false z stops)

theorem single (l : Lexeme) (spelt : l.Spelt) (ends : ∀ z, l.EndsBefore z) (notIndex : l ≠ .index) :
    Delimited l.text [l] := by
  intro b z
  exact .lexeme spelt (ends z) (absurd · notIndex) rfl .done

/-- A lexeme that ends before what comes next. -/
theorem cons (spelt : l.Spelt) (ends : ∀ z, l.EndsBefore (u ++ z)) (notIndex : l ≠ .index)
    (rest : Delimited u ls) : Delimited (l.text ++ u) (l :: ls) := by
  intro b z
  exact .lexeme spelt (ends z) (absurd · notIndex) (List.append_assoc ..) (rest false z)

theorem leftParen : Delimited ['('] [.leftParen] :=
  single .leftParen trivial (fun _ => trivial) nofun

theorem leftBrace : Delimited ['{'] [.leftBrace] :=
  single .leftBrace trivial (fun _ => trivial) nofun

theorem symbol (s : Symbol) :
    Delimited ((Lexeme.symbol s).text ++ ['{']) [.symbol s, .leftBrace] :=
  leftBrace.cons trivial (fun _ _ first => Option.some.inj first ▸ rfl) nofun

theorem callee (letter : isLetter f = true) : Delimited [f, '('] [.callee f, .leftParen] :=
  leftParen.cons (l := .callee f) letter (fun _ => rfl) nofun

end Delimited

namespace Bare

/-- Spaces do not matter. -/
theorem spaced (text : Bare u ls) : Bare (' ' :: u) ls :=
  fun _ z stops => .blank rfl (text true z stops)

theorem follow (text : Bare u ls) (l : Lexeme) (follow : follows l = true) :
    Delimited (u ++ l.text) (ls ++ [l]) := by
  intro b z
  rw [List.append_assoc]
  have next : Scans false (l.text ++ z) [l] false z :=
    .lexeme (spelt_of_follows follow) (ends_of_follows follow z) (fun _ => rfl) rfl .done
  exact (text b _ (stops_of_follows follow z)).trans next

theorem followSpaced (text : Bare u ls) (l : Lexeme) (follow : follows l = true)
    (notIndex : l ≠ .index) : Delimited (u ++ ' ' :: l.text) (ls ++ [l]) := by
  intro b z
  rw [List.append_assoc]
  have next : Scans false (' ' :: l.text ++ z) [l] false z :=
    .blank rfl <| .lexeme (spelt_of_follows follow) (ends_of_follows follow z)
      (absurd · notIndex) rfl .done
  have stops : Stops (' ' :: l.text ++ z) := by
    intro c first
    obtain rfl := Option.some.inj first
    decide
  exact (text b _ stops).trans next

/-- The braces between two operands. -/
theorem between (text : Bare u ls) :
    Delimited (u ++ ['}', '{']) (ls ++ [.rightBrace, .leftBrace]) := by
  have closed : Delimited (u ++ ['}']) (ls ++ [.rightBrace]) := text.follow .rightBrace rfl
  simpa using closed.append .leftBrace

/-- The braces between the start of a sum and its bound. -/
theorem power (text : Bare u ls) :
    Delimited (u ++ ['}', '^', '{']) (ls ++ [.rightBrace, .sign .power, .leftBrace]) := by
  have closed : Delimited (u ++ ['}']) (ls ++ [.rightBrace]) := text.follow .rightBrace rfl
  have caret : Delimited ['^'] [.sign .power] :=
    .single (.sign .power) trivial (fun _ => trivial) nofun
  simpa using (closed.append caret).append .leftBrace

theorem parenthesised (text : Bare u ls) (needed : Bool) :
    Bare (parenthesised needed u) (enclosed needed ls) := by
  cases needed with
  | false => exact text
  | true => exact ((Delimited.leftParen.before text).follow .rightParen rfl).bare

end Bare

theorem Identifier.WellFormed.bare {i : Identifier} (letter : i.WellFormed) : Bare i.text i.lexemes := by
  cases i with
  | scalar c =>
    intro b z stops
    exact .lexeme letter (stops.scalar c) nofun rfl .done
  | vector c =>
    have name : Bare [c] [.scalar c] := by
      intro b z stops
      exact .lexeme letter (stops.scalar c) nofun rfl .done
    have closed := ((Delimited.symbol .vec).before name).follow .rightBrace rfl
    exact closed.bare

namespace Expression

variable (n : Numerals)

theorem bareItems {es : List Expression}
    (items : ∀ e ∈ es, Bare (e.text n) (e.lexemes n)) (text : Bare u ls) :
    Bare (u ++ textItems n es) (ls ++ lexemesItems n es) := by
  induction es generalizing u ls with
  | nil => simpa [textItems, lexemesItems] using text
  | cons e es ih =>
    have comma : Delimited (u ++ [',']) (ls ++ [.comma]) := text.follow .comma rfl
    have item := comma.before (items e (.head _))
    simpa [textItems, lexemesItems] using ih (fun e member => items e (.tail _ member)) item

/-- What is printed falls into its lexemes. -/
theorem WellFormed.bare {e : Expression} (held : e.WellFormed Binary64.Writable) :
    Bare (e.text n) (e.lexemes n) := by
  induction held with
  | @number x writable =>
    intro b z stops
    exact .lexeme (n.spelt x writable) (stops.number _ _) nofun rfl .done
  | identifier letter => exact letter.bare
  | call letter _ argument =>
    have opened := (Delimited.callee letter).before argument
    exact (opened.follow .rightParen rfl).bare
  | vector _ _ _ first second others =>
    have opened := (Delimited.leftParen.before first).follow .comma rfl
    have items := bareItems n others (opened.before second)
    exact (items.follow .rightParen rfl).bare
  | @sign a b s _ _ left right =>
    have before := (left.parenthesised (a.looseLeft s)).followSpaced (.sign s) rfl nofun
    exact before.before (right.parenthesised (b.looseRight s)).spaced
  | @index a b _ _ base subscript =>
    have mark := (base.parenthesised a.looseBase).follow .index rfl
    exact ((mark.before subscript).follow .rightBrace rfl).bare
  | @unary a s _ operand =>
    exact (((Delimited.symbol (.unary s)).before operand).follow .rightBrace rfl).bare
  | @binary _ _ s _ _ first second =>
    have opened := ((Delimited.symbol (.binary s)).before first).between
    exact ((opened.before second).follow .rightBrace rfl).bare
  | @ternary _ _ _ s _ _ _ first second third =>
    have opened := ((Delimited.symbol (.ternary s)).before first).between
    exact (((opened.before second).between.before third).follow .rightBrace rfl).bare
  | sum letter _ _ _ start bound summand =>
    have name := ((Delimited.symbol .sum).before letter.bare).follow .equals rfl
    have upper := (name.before start).power.before bound
    exact (upper.follow .rightBrace rfl).before summand

end Expression

theorem Head.WellFormed.bare {head : Head} (held : head.WellFormed) :
    Bare head.text head.lexemes := by
  cases head with
  | name i => exact Identifier.WellFormed.bare held
  | applied f p =>
    have opened := (Delimited.callee held.1).before held.2.bare
    exact (opened.follow .rightParen rfl).bare
  | mapped f p i =>
    have parameter : (Identifier.vector p).WellFormed := held.2.1
    have item : (Identifier.scalar i).WellFormed := held.2.2
    have opened := (Delimited.callee held.1).before parameter.bare
    have mark := (opened.follow .rightParen rfl).bare.follow .index rfl
    exact ((mark.before item.bare).follow .rightBrace rfl).bare

theorem Statement.WellFormed.bare (n : Numerals) {s : Statement}
    (held : s.WellFormed Binary64.Writable) : Bare (s.text n) (s.lexemes n) := by
  cases s with
  | expression e => exact Expression.WellFormed.bare n held
  | declaration head body =>
    have target := held.1.bare.followSpaced .equals rfl nofun
    exact target.before (held.2.bare n).spaced

theorem Statement.WellFormed.line (n : Numerals) {s : Statement}
    (held : s.WellFormed Binary64.Writable) :
    Delimited (s.text n ++ ['\n']) (s.lexemes n ++ [.newline]) :=
  (held.bare n).follow .newline rfl

theorem Sheet.lines (n : Numerals) {s : Statement} {sheet : Sheet}
    (held : ∀ t ∈ s :: sheet, t.WellFormed Binary64.Writable) :
    Delimited (Sheet.text n (s :: sheet) ++ ['\n']) (Sheet.lexemes n (s :: sheet)) := by
  induction sheet generalizing s with
  | nil => simpa [text, lexemes] using (held s (.head _)).line n
  | cons t sheet ih =>
    have rest := ih fun u member => held u (.tail _ member)
    have both := ((held s (.head _)).line n).append rest
    simpa [text, lexemes, List.intercalate_cons_cons] using both

end Formulary
