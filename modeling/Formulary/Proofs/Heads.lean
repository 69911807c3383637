import Formulary.Proofs.Blanks
import Formulary.Proofs.Sheets
import Formulary.Proofs.Suffixes

/-! Heads of declarations. The front of a declaration is read as any expression is and judged afterwards;
which fronts are heads can be seen from their characters. -/
namespace Formulary

/-! The lexemes of heads. -/

theorem Head.text_lexemes (head : Head) : head.lexemes.flatMap Lexeme.text = head.text := by
  have name (i : Identifier) : i.lexemes.flatMap Lexeme.text = i.text := by cases i <;> rfl
  cases head with
  | name i => exact name i
  | applied f p => simp [Head.lexemes, Head.text, Lexeme.text, name]
  | mapped f p i => simp [Head.lexemes, Head.text, Lexeme.text, name]

/-- A phrase that is a head is written as this head. -/
def Phrase.WrittenIn (ls : List Lexeme) (p : Phrase) : Prop := ∀ h ∈ p.head, ls = h.lexemes

namespace Phrase.WrittenIn

theorem plain (e : Expression) : (Phrase.plain e).WrittenIn ls := nofun

theorem call {p : Phrase} (f : Char) (argument : p.WrittenIn ks) :
    (Phrase.call f p).WrittenIn ([.callee f, .leftParen] ++ ks ++ [.rightParen]) := by
  intro h found
  simp only [Phrase.call, Option.mem_def] at found
  split at found
  · next i named =>
    cases found
    rw [argument _ named]
    rfl
  · cases found

theorem index {p q : Phrase} (base : p.WrittenIn ls) (subscript : q.WrittenIn ks) :
    (Phrase.index p q).WrittenIn (ls ++ [.index] ++ ks ++ [.rightBrace]) := by
  intro h found
  simp only [Phrase.index, Option.mem_def] at found
  split at found
  · next f v i applied named =>
    cases found
    rw [base _ applied, subscript _ named]
    rfl
  · cases found

end Phrase.WrittenIn

/-- Only a phrase that is all of a part can be the head that the part is. -/
def Part.WrittenIn (ls : List Lexeme) : Part → Prop
  | .chain c => c = [] → ls = []
  | .opening (.argument f) => ls = [.callee f, .leftParen]
  | .opening (.subscript base) => ∃ ks, ls = ks ++ [.index] ∧ base.WrittenIn ks
  | .operand p _ | .whole p => p.WrittenIn ls
  | _ => True

theorem Reads.writtenIn (read : Reads ls part) : part.WrittenIn ls := by
  induction read with
  | chainNil => exact fun _ => rfl
  | chainSign => exact nofun
  | argument => rfl
  | subscript _ _ operand => exact ⟨_, rfl, operand⟩
  | sumSubscript => exact ⟨_, rfl, .plain _⟩
  | identifier =>
    intro h found
    cases found
    rfl
  | @call _ f _ _ _ _ opening argument =>
    obtain rfl := opening
    exact argument.call f
  | indexed _ _ opening subscript =>
    obtain ⟨ks, rfl, base⟩ := opening
    exact base.index subscript
  | @last _ c _ _ _ _ _ chain operand =>
    cases c with
    | nil =>
      obtain rfl := chain rfl
      exact operand
    | cons => exact .plain _
  | @lastSum _ c =>
    cases c <;> exact .plain _
  | number | parenthesised | pair | vector | applied => exact .plain _
  | _ => trivial

/-- Without its blanks a text is its lexemes. -/
theorem Scans.withoutBlanks_eq (read : Scans b text ls b' w) :
    withoutBlanks text = ls.flatMap Lexeme.text ++ withoutBlanks w := by
  induction read with
  | done => rfl
  | blank blank _ ih => simpa [withoutBlanks, blank] using ih
  | lexeme spelt _ _ eq _ ih =>
    rw [eq, withoutBlanks_append, withoutBlanks_text spelt, ih, List.flatMap_cons, List.append_assoc]

/-- A text is written as a head when without its blanks it is the text of the head. -/
def WrittenAs (text : List Char) (head : Head) : Prop :=
  head.WellFormed ∧ withoutBlanks text = head.text

theorem Reads.writtenAs (lexes : Lexes text ls) (read : Reads ls (.whole p)) (named : p.head = some head) :
    WrittenAs text head := by
  have held := read.wellFormed (P := fun _ => True) (fun _ _ => trivial) lexes.spelt
  obtain ⟨b, scans⟩ := lexes
  have same : ls = head.lexemes := read.writtenIn head named
  refine ⟨held.head head named, ?_⟩
  rw [scans.withoutBlanks_eq, same, head.text_lexemes]
  exact List.append_nil _

theorem WrittenAs.reads (written : WrittenAs text head) (lexes : Lexes text ls) (read : Reads ls (.whole p)) :
    ∃ q, Reads ls (.whole q) ∧ q.head = some head := by
  obtain ⟨named, same⟩ := written
  obtain ⟨b, scans⟩ := lexes
  have line : ReadsText .line (ls ++ []) [.expression p.expr] :=
    .single (n := 0) (m := 0) nofun (.expression read)
  have bare : Lexes head.text ls := ⟨false, same ▸ scans.squeeze line.parted.1⟩
  obtain rfl := bare.unique named.bare.lexes
  exact head.reads

/-! Declarations as they are read. -/

theorem parts_equals : Parts '=' := by unfold Parts; decide

/-- The pieces of a text with an `=` between two texts. -/
theorem scan_equals (front : Lexes u ls) (back : Lexes v ks) : ∃ ps qs : List Placed,
    ps.map (·.piece) = ls.map .lexeme ∧ qs.map (·.piece) = ks.map .lexeme ∧
      scan (u ++ '=' :: v) = ps ++ [⟨.lexeme .equals, u.length⟩] ++ qs := by
  obtain ⟨b, before⟩ := front.before parts_equals v
  obtain ⟨b', behind⟩ := back
  obtain ⟨ps, left, scanned⟩ := before.scanFrom_eq 0
  obtain ⟨qs, right, rest⟩ := behind.scanFrom_eq (u.length + 1)
  refine ⟨ps, qs, left, right, scanned.trans ?_⟩
  have place : 0 + ((u ++ '=' :: v).length - ('=' :: v).length) = u.length := by simp
  have equals : scanFrom 0 u.length b ('=' :: v) =
      ⟨.lexeme .equals, u.length⟩ :: scanFrom 0 (u.length + 1) false v := rfl
  rw [place, equals, rest]
  exact List.append_cons ps _ _ |>.trans (congrArg _ (List.append_nil qs))

/-- What a text with an `=` between two expressions is read as, before its head is judged. -/
theorem readClauses_declaration (front : Lexes u ls) (target : Reads ls (.whole p)) (back : Lexes v ks)
    (definition : Reads ks (.whole q)) :
    readClauses .line (u ++ '=' :: v) = .ok [.declaration p.head u.length q.expr] := by
  obtain ⟨ps, qs, left, right, pieces⟩ := scan_equals front back
  obtain ⟨site, p', ending, run, settled⟩ := target.run_fresh .line [] false
  let root : Site := { Site.atStart .line [] with root := .body p.head u.length }
  obtain ⟨site', q', ending', run', settled'⟩ := definition.run root rfl
  have declares : Goal.line ≠ .formula := nofun
  have step : (State.inside site (.value p' ending)).take u.length .equals =
      .ok (.inside root .operand) := feed_equals declares settled ending u.length
  have upTo := State.takePieces_append_eq_ok.mpr
    ⟨_, run.takePieces left, State.takePieces_lexeme (p := ⟨.lexeme .equals, u.length⟩) rfl step⟩
  have all := State.takePieces_append_eq_ok.mpr ⟨_, upTo, run'.takePieces right⟩
  refine readClauses_eq_ok.mpr ⟨.inside site' (.value q' ending'), pieces ▸ all, ?_⟩
  simp only [State.finish, settled']
  rfl

/-- A text with an `=` between two expressions declares what its head names, or nothing. -/
theorem parseStatement_equals (front : Lexes u ls) (target : Reads ls (.whole p)) (back : Lexes v ks)
    (definition : Reads ks (.whole q)) : parseStatement (u ++ '=' :: v) =
      match p.head with
      | some head => .ok (.declaration head q.expr)
      | none => .error ⟨.invalidTarget, u.length, [.newline]⟩ := by
  rw [parseStatement_of_ok (readClauses_declaration front target back definition)]
  cases p.head <;> rfl

theorem parseStatement_written (h b : ExpressionText) (written : WrittenAs h.text head) :
    parseStatement (h.text ++ '=' :: b.text) = .ok (.declaration head b.value) := by
  obtain ⟨ls, p, front, read, -⟩ := h.reads
  obtain ⟨ks, q, back, definition, value⟩ := b.reads
  obtain ⟨p', target, named⟩ := written.reads front read
  rw [parseStatement_equals front target back definition, named, value]

theorem parseStatement_unwritten (h b : ExpressionText) (unwritten : ∀ head, ¬ WrittenAs h.text head) :
    parseStatement (h.text ++ '=' :: b.text) = .error ⟨.invalidTarget, h.text.length, [.newline]⟩ := by
  obtain ⟨ls, p, front, target, -⟩ := h.reads
  obtain ⟨ks, q, back, definition, -⟩ := b.reads
  rw [parseStatement_equals front target back definition]
  cases named : p.head with
  | none => rfl
  | some head => exact absurd (target.writtenAs front named) (unwritten head)

/-! Trees of declarations. -/

/-- What a declaration assigns, by the text of its head without blanks. -/
inductive Declares (body : Node) : List Char → Node → Prop where
  | scalar : isLetter x = true →
      Declares body [x] (.doubleArity .assignment (.variable (.scalarId (letter x))) body)
  | vector : isLetter x = true →
      Declares body ("\\vec".toList ++ ['{', x, '}'])
        (.doubleArity .assignment (.variable (.vectorId (letter x))) body)
  | function : isLetter f = true → isLetter x = true →
      Declares body [f, '(', x, ')'] (.doubleArity .assignment (.variable (.scalarId (letter f)))
        (.abstraction (.scalarId (letter x)) body))
  | vectorFunction : isLetter f = true → isLetter x = true →
      Declares body ([f, '('] ++ "\\vec".toList ++ ['{', x, '}', ')'])
        (.doubleArity .assignment (.variable (.scalarId (letter f)))
          (.abstraction (.vectorId (letter x)) body))
  | map : isLetter f = true → isLetter p = true → isLetter i = true →
      Declares body ([f, '('] ++ "\\vec".toList ++ ['{', p, '}', ')', '_', '{', i, '}'])
        (.doubleArity .assignment (.variable (.scalarId (letter f)))
          (.mapAbstraction (.vectorId (letter p)) (.text (letter i)) body))

theorem declares_iff (e : Expression) (text : List Char) (tree : Node) : Declares e.toNode text tree ↔
    ∃ head : Head, head.WellFormed ∧ text = head.text ∧ (Statement.declaration head e).toNode = tree := by
  constructor
  · intro declares
    cases declares with
    | @scalar x named => exact ⟨.name (.scalar x), named, rfl, rfl⟩
    | @vector x named => exact ⟨.name (.vector x), named, rfl, rfl⟩
    | @function f x callee named => exact ⟨.applied f (.scalar x), ⟨callee, named⟩, rfl, rfl⟩
    | @vectorFunction f x callee named => exact ⟨.applied f (.vector x), ⟨callee, named⟩, rfl, rfl⟩
    | @map f p i callee named index => exact ⟨.mapped f p i, ⟨callee, named, index⟩, rfl, rfl⟩
  · rintro ⟨head, held, rfl, rfl⟩
    cases head with
    | name i =>
      cases i with
      | scalar x => exact .scalar held
      | vector x => exact .vector held
    | applied f i =>
      cases i with
      | scalar x => exact .function held.1 held.2
      | vector x => exact .vectorFunction held.1 held.2
    | mapped f p i => exact .map held.1 held.2.1 held.2.2

/-- A fault at the end of the first of two texts on one line. -/
theorem locate_front (front : '\n' ∉ u) (back : '\n' ∉ v) : locate (u ++ v) u.length = ⟨1, u.length + 1⟩ := by
  have oneLine : '\n' ∉ u ++ v := by simp [front, back]
  have split : splitLines (u ++ v) = [] ++ (u ++ v) :: [] := splitLines_of_oneLine oneLine
  have place := locate_line (k := u.length) split (by simp)
  simpa [lineStart, unlines] using place

/-- A text with an `=` between two expressions declares a name, a function of one parameter or a map, if
the first expression is written as one of them, blanks aside and without parentheses around it or its
parts. Whatever else stands before the `=` is reported at the `=`. -/
theorem declaration_heads (h b : ExpressionText) :
    (∀ tree, (∃ s, parseStatement (h.text ++ '=' :: b.text) = .ok s ∧ s.toNode = tree) ↔
      Declares b.value.toNode (withoutBlanks h.text) tree) ∧
    ((∀ tree, ¬ Declares b.value.toNode (withoutBlanks h.text) tree) →
      ∃ r, parseStatement (h.text ++ '=' :: b.text) = .error r ∧ r.report (h.text ++ '=' :: b.text) =
        { message := "invalid declaration target"
          position := some h.text.length
          line := some 1
          column := some (h.text.length + 1)
          expected := ["newline"]
          found := some "'='" }) := by
  constructor
  · intro tree
    rw [declares_iff]
    constructor
    · rintro ⟨s, ok, rfl⟩
      by_cases written : ∃ head, WrittenAs h.text head
      · obtain ⟨head, written⟩ := written
        rw [parseStatement_written h b written] at ok
        obtain rfl := Except.ok.inj ok
        exact ⟨head, written.1, written.2, rfl⟩
      · rw [parseStatement_unwritten h b fun head held => written ⟨head, held⟩] at ok
        cases ok
    · rintro ⟨head, held, same, rfl⟩
      exact ⟨_, parseStatement_written h b ⟨held, same⟩, rfl⟩
  · intro none
    have unwritten (head : Head) : ¬ WrittenAs h.text head := fun written =>
      none _ ((declares_iff _ _ _).mpr ⟨head, written.1, written.2, rfl⟩)
    refine ⟨_, parseStatement_unwritten h b unwritten, ?_⟩
    have place := locate_front (v := '=' :: b.text) h.oneLine (by simpa using b.oneLine)
    simp only [Rejection.report, Report.ofCause, place]
    rfl

/-- A map declares with blanks in its head, but not with parentheses around its index. -/
theorem declaration_heads_of_maps :
    (∃ s, parseStatement (" f( \\vec \x7bp\x7d )_\x7b i \x7d ".toList ++ '=' :: "p+i".toList) = .ok s ∧
      s.toNode = .doubleArity .assignment (.variable (.scalarId "f"))
        (.mapAbstraction (.vectorId "p") (.text "i") (.doubleArity (.sign .plus)
          (.variable (.scalarId "p")) (.variable (.scalarId "i"))))) ∧
    ∃ r, parseStatement ("f(\\vec\x7bp\x7d)_\x7b(i)\x7d".toList ++ '=' :: "p+i".toList) = .error r ∧
      r.report ("f(\\vec\x7bp\x7d)_\x7b(i)\x7d".toList ++ '=' :: "p+i".toList) =
        ⟨"invalid declaration target", some 16, some 1, some 17, ["newline"], some "'='"⟩ := by
  let body : ExpressionText := ⟨"p+i".toList, _, by decide, rfl⟩
  constructor
  · exact ((declaration_heads ⟨" f( \\vec \x7bp\x7d )_\x7b i \x7d ".toList, _, by decide, rfl⟩ body).1 _).mpr
      (.map (f := 'f') (p := 'p') (i := 'i') rfl rfl rfl)
  · refine (declaration_heads ⟨"f(\\vec\x7bp\x7d)_\x7b(i)\x7d".toList, _, by decide, rfl⟩ body).2 fun tree => ?_
    intro declares
    generalize same : withoutBlanks _ = text at declares
    have length := congrArg List.length same
    cases declares <;> cases length

end Formulary
