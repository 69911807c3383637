import Formulary.Parse
import Mathlib.Data.List.Forall2

/-! Control words resolved. The reserved name, the tables of operators searched in their order and the
operator that is looked up later agree on every name. So a stream of tokens keeps all but the kinds of its
control words, up to the first that names nothing, and what is behind that one does not matter. A word of a
text is resolved as the token made of it. -/
namespace Formulary

/-! Names. -/

namespace Symbol

variable {name : String} {arity : Nat} {o : Operator} {s : Symbol}

/-- The first table that lists a name, by its number of operands, and the operator listed there. -/
def listing? (name : String) : Option (Nat × Operator) :=
  [1, 2, 3].findSome? fun arity => ((table arity).find? (·.spelling = name)).map (arity, ·)

def arityOf? (name : String) : Option Nat := (listing? name).map Prod.fst

/-- The names in the tables. -/
def names : List String := operators.map (·.spelling)

theorem operators_eq : operators = [1, 2, 3].flatMap table := rfl

theorem arity?_of_mem_table (listed : o ∈ table arity) : o.arity? = some arity := by
  unfold table at listed
  split at listed
  · obtain ⟨u, -, rfl⟩ := List.mem_map.mp listed
    rfl
  · obtain ⟨b, -, rfl⟩ := List.mem_map.mp listed
    rfl
  · rcases List.mem_cons.mp listed with rfl | listed
    · rfl
    · obtain ⟨t, -, rfl⟩ := List.mem_map.mp listed
      rfl
  · cases listed

theorem operator?_eq (name : String) : operator? name = (listing? name).map Prod.snd := by
  rw [operator?, operators_eq, List.find?_flatMap, listing?, List.map_findSome?]
  congr 1
  funext arity
  rw [Function.comp_apply, Option.map_map]
  exact Option.map_id'.symm

theorem arityOf?_eq (name : String) : arityOf? name = (operator? name).bind Operator.arity? := by
  rw [arityOf?, operator?_eq]
  cases found : listing? name with
  | none => rfl
  | some listing =>
    obtain ⟨arity, -, listed⟩ := List.exists_of_findSome?_eq_some found
    obtain ⟨o, first, rfl⟩ := Option.map_eq_some_iff.mp listed
    exact (arity?_of_mem_table (List.mem_of_find?_eq_some first)).symm

theorem exists_name (operands : o.arity? = some arity) : ∃ s : Symbol, s.name = o.spelling := by
  cases o with
  | sum => exact ⟨.sum, rfl⟩
  | unary u => exact ⟨.unary u, rfl⟩
  | binary b => exact ⟨.binary b, rfl⟩
  | ternary t => exact ⟨.ternary t, rfl⟩
  | assignment | index | sign => cases operands

/-- What names a symbol is reserved or in a table. -/
theorem exists_ofName?_iff : (∃ s, ofName? name = some s) ↔ name = "vec" ∨ name ∈ names := by
  constructor
  · rintro ⟨s, named⟩
    obtain rfl := name_of_ofName? named
    rcases operator?_name s with rfl | ⟨o, found, -⟩
    · exact .inl rfl
    · have spelt : o.spelling = s.name := by simpa using List.find?_some found
      exact .inr (List.mem_map.mpr ⟨o, List.mem_of_find?_eq_some found, spelt⟩)
  · rintro (rfl | listed)
    · exact ⟨.vec, ofName?_name .vec⟩
    · obtain ⟨o, member, rfl⟩ := List.mem_map.mp listed
      obtain ⟨arity, -, inTable⟩ := List.mem_flatMap.mp (operators_eq ▸ member)
      obtain ⟨s, same⟩ := exists_name (arity?_of_mem_table inTable)
      exact ⟨s, same ▸ ofName?_name s⟩

theorem ofName?_eq_none_iff : ofName? name = none ↔ name ≠ "vec" ∧ name ∉ names := by
  rw [Option.eq_none_iff_forall_ne_some, ← not_or, ← exists_ofName?_iff, not_exists]

theorem eq_iff_name (named : ofName? name = some s) (s' : Symbol) : s = s' ↔ name = s'.name := by
  refine ⟨fun same => same ▸ (name_of_ofName? named).symm, fun same => ?_⟩
  rw [same, ofName?_name] at named
  exact (Option.some.inj named).symm

def operands? : Symbol → Option Nat
  | .vec => none
  | .unary _ => some 1
  | .binary _ => some 2
  | .ternary _ | .sum => some 3

theorem arityOf?_name (s : Symbol) : arityOf? s.name = s.operands? := by
  rw [arityOf?_eq]
  rcases operator?_name s with rfl | ⟨o, found, symbol⟩
  · decide
  · rw [found]
    cases o <;> cases symbol <;> rfl

/-- The kind of a control word by its name, in agreement with the operator that is looked up later. -/
structure Classifies (name : String) (kind : Terminal) : Prop where
  vec : kind = .vec ↔ name = "vec"
  sum : kind = .sum ↔ name = "sum_"
  unary : kind = .unary ↔ arityOf? name = some 1
  binary : kind = .binary ↔ arityOf? name = some 2
  ternary : kind = .ternary ↔ name ≠ "sum_" ∧ arityOf? name = some 3
  operator : kind ≠ .vec → ∃ o, operator? name = some o ∧ o.spelling = name ∧
    (ofOperator? o).map Symbol.terminal = some kind

theorem classifies (named : ofName? name = some s) : Classifies name s.terminal := by
  have vec := eq_iff_name named .vec
  have sum := eq_iff_name named .sum
  have operands : arityOf? name = s.operands? := name_of_ofName? named ▸ arityOf?_name s
  refine ⟨?_, ?_, ?_, ?_, ?_, fun notVec => ?_⟩
  · exact Iff.trans (by cases s <;> simp [terminal]) vec
  · exact Iff.trans (by cases s <;> simp [terminal]) sum
  · rw [operands]
    cases s <;> simp [terminal, operands?]
  · rw [operands]
    cases s <;> simp [terminal, operands?]
  · have notSum : name ≠ "sum_" ↔ s ≠ .sum := not_congr sum.symm
    rw [operands, notSum]
    cases s <;> simp [terminal, operands?]
  · obtain rfl := name_of_ofName? named
    rcases operator?_name s with rfl | ⟨o, found, symbol⟩
    · exact absurd rfl notVec
    · exact ⟨o, found, by simpa using List.find?_some found, by rw [symbol]; rfl⟩

end Symbol

namespace Token

variable {t : Token}

/-! Tokens. -/

/-- A control word whose name is neither reserved nor in a table. -/
def NamesNothing (t : Token) : Prop :=
  t.terminal = .control ∧ t.symbolName ≠ "vec" ∧ t.symbolName ∉ Symbol.names

instance : DecidablePred NamesNothing := fun t =>
  inferInstanceAs (Decidable (t.terminal = .control ∧ t.symbolName ≠ "vec" ∧ t.symbolName ∉ Symbol.names))

/-- A token as it is handed on. -/
structure RetypedTo (t resolved : Token) : Prop where
  text : resolved.text = t.text
  position : resolved.position = t.position
  line : resolved.line = t.line
  column : resolved.column = t.column
  other : t.terminal ≠ .control → resolved = t
  control : t.terminal = .control → Symbol.Classifies t.symbolName resolved.terminal
  noControl : resolved.terminal ≠ .control

/-- The report on a control word that names nothing. -/
structure ReportedBy (t : Token) (report : Report) : Prop where
  message : report.message = "unknown symbol '" ++ t.text ++ "'"
  found : report.found = some (quoted t.text)
  position : report.position = t.position
  line : report.line = t.line
  column : report.column = t.column

theorem reportedBy_unknown (t : Token) : t.ReportedBy t.unknown := ⟨rfl, rfl, rfl, rfl, rfl⟩

theorem resolve_named {s : Symbol} (control : t.terminal = .control)
    (named : Symbol.ofName? t.symbolName = some s) : t.resolve = .ok { t with terminal := s.terminal } := by
  rw [resolve, if_pos control, named]

theorem resolve_unnamed (control : t.terminal = .control) (unnamed : Symbol.ofName? t.symbolName = none) :
    t.resolve = .error t.unknown := by
  rw [resolve, if_pos control, unnamed]

theorem resolve_unknown (nothing : t.NamesNothing) : t.resolve = .error t.unknown :=
  resolve_unnamed nothing.1 (Symbol.ofName?_eq_none_iff.mpr nothing.2)

theorem resolve_known (known : ¬t.NamesNothing) :
    ∃ resolved, t.resolve = .ok resolved ∧ t.RetypedTo resolved := by
  by_cases control : t.terminal = .control
  · cases named : Symbol.ofName? t.symbolName with
    | none => exact absurd ⟨control, Symbol.ofName?_eq_none_iff.mp named⟩ known
    | some s =>
      refine ⟨_, resolve_named control named, rfl, rfl, rfl, rfl, fun other => absurd control other,
        fun _ => Symbol.classifies named, ?_⟩
      cases s <;> exact nofun
  · exact ⟨t, if_neg control, rfl, rfl, rfl, rfl, fun _ => rfl, fun isControl => absurd isControl control,
      control⟩

/-! Words of a text. -/

/-- The token of a control word, given without its backslash, at a position of a text. -/
def ofWord (text : List Char) (start : Nat) (word : List Char) : Token :=
  let place := locate text start
  { terminal := .control
    text := String.ofList ('\\' :: word)
    position := some start
    line := some place.line
    column := some place.column }

theorem symbolName_ofWord (text : List Char) (start : Nat) (word : List Char) :
    (ofWord text start word).symbolName = String.ofList word := by
  simp [symbolName, ofWord]

/-- A reader of the text takes the word for the symbol that the token is resolved to, and refuses it with
the same report. -/
theorem resolve_ofWord (text : List Char) (start : Nat) (word : List Char) (state : State) :
    (∃ l, wordPiece word = .lexeme l ∧
      (ofWord text start word).resolve = .ok { ofWord text start word with terminal := l.terminal }) ∨
    ∃ r, state.takePiece ⟨wordPiece word, start⟩ = .error r ∧
      (ofWord text start word).resolve = .error (r.report text) := by
  rw [wordPiece, ← symbolName_ofWord text start word]
  cases named : Symbol.ofName? (ofWord text start word).symbolName with
  | some s => exact .inl ⟨.symbol s, rfl, resolve_named rfl named⟩
  | none =>
    exact .inr ⟨⟨.unknownSymbol (String.ofList ('\\' :: word)), start, symbolTerminals⟩, rfl,
      resolve_unnamed rfl named⟩

/-! Streams. -/

/-- What comes before a control word that names nothing is handed on, whatever is behind it. -/
theorem resolveAll_append {known : List Token} (named : ∀ t ∈ known, ¬t.NamesNothing) :
    ∃ out, List.Forall₂ RetypedTo known out ∧ ∀ rest : List Token,
      resolveAll (known ++ rest) = (out ++ (resolveAll rest).1, (resolveAll rest).2) := by
  -- The rest stays open in the induction, so that one list of tokens serves whatever is behind them.
  induction known with
  | nil => exact ⟨[], .nil, fun rest => rfl⟩
  | cons t known ih =>
    obtain ⟨head, tail⟩ := List.forall_mem_cons.mp named
    obtain ⟨resolved, run, retyped⟩ := resolve_known head
    obtain ⟨out, retypedTail, runTail⟩ := ih tail
    refine ⟨resolved :: out, .cons retyped retypedTail, fun rest => ?_⟩
    rw [List.cons_append, resolveAll, run]
    simp only [runTail rest, List.cons_append]

theorem resolveAll_unknown (nothing : t.NamesNothing) (rest : List Token) :
    resolveAll (t :: rest) = ([], some t.unknown) := by
  rw [resolveAll, resolve_unknown nothing]

/-- A stream is resolved token by token up to the first control word that names nothing, and stops there
whatever is behind it. -/
theorem resolveAll_retypes (ts : List Token) :
    (∃ known t unread, ts = known ++ t :: unread ∧ (∀ k ∈ known, ¬k.NamesNothing) ∧ t.NamesNothing ∧
      ∃ out report, List.Forall₂ RetypedTo known out ∧ t.ReportedBy report ∧
        ∀ others, resolveAll (known ++ t :: others) = (out, some report)) ∨
    (∀ t ∈ ts, ¬t.NamesNothing) ∧ ∃ out, List.Forall₂ RetypedTo ts out ∧ out.length = ts.length ∧
      resolveAll ts = (out, none) := by
  cases first : ts.find? (·.NamesNothing) with
  | some t =>
    obtain ⟨nothing, known, unread, split, before⟩ := List.find?_eq_some_iff_append.mp first
    have named : ∀ k ∈ known, ¬k.NamesNothing := fun k member => by simpa using before k member
    replace nothing : t.NamesNothing := of_decide_eq_true nothing
    obtain ⟨out, retyped, run⟩ := resolveAll_append named
    refine .inl ⟨known, t, unread, split, named, nothing, out, t.unknown, retyped, t.reportedBy_unknown,
      fun others => ?_⟩
    rw [run, resolveAll_unknown nothing, List.append_nil]
  | none =>
    have named : ∀ t ∈ ts, ¬t.NamesNothing := fun t member => by
      simpa using List.find?_eq_none.mp first t member
    obtain ⟨out, retyped, run⟩ := resolveAll_append named
    refine .inr ⟨named, out, retyped, retyped.length_eq.symm, ?_⟩
    have whole := run []
    rwa [List.append_nil, resolveAll, List.append_nil] at whole

/-- The name of the sum ends in an underscore; without it the word names nothing. -/
example : (resolveAll [⟨.control, "\\sum_", some 0, some 1, some 1⟩, ⟨.scalar, "x", none, none, none⟩,
      ⟨.control, "\\sum", some 6, some 1, some 7⟩, ⟨.control, "\\vec", some 10, some 1, some 11⟩]).1 =
    [⟨.sum, "\\sum_", some 0, some 1, some 1⟩, ⟨.scalar, "x", none, none, none⟩] := by
  decide

end Token
end Formulary
