import Formulary.Proofs.Faults
import Formulary.Proofs.Joining
import Formulary.Proofs.Places

/-! A sheet is read line by line. No piece reaches over a newline, and inside a line the reader does for a
sheet what it does for the line alone; at the newline the line has to be complete. -/
namespace Formulary

variable {line rest : List Char} {ps : List Placed}

/-! The pieces of a line. -/

def Placed.moved (start : Nat) (p : Placed) : Placed := { p with start := start + p.start }

theorem scanFrom_moved (start passed offset : Nat) (b : Bool) (cs : List Char) :
    scanFrom passed (start + offset) b cs = (scanFrom passed offset b cs).map (·.moved start) := by
  induction cs generalizing passed offset b with
  | nil => rfl
  | cons c cs ih =>
    cases passed with
    | succ passed => exact ih passed (offset + 1) false
    | zero =>
      rw [scanFrom, scanFrom]
      split
      · exact ih 0 (offset + 1) true
      · exact congrArg _ (ih _ (offset + 1) false)

theorem scanFrom_line (passed offset : Nat) (b : Bool) (within : passed ≤ line.length)
    (rest : List Char) : scanFrom passed offset b (line ++ '\n' :: rest) =
      scanFrom passed offset b line ++
        ⟨.lexeme .newline, offset + line.length⟩ :: scanFrom 0 (offset + line.length + 1) false rest :=
  scanFrom_append_cons parts_newline (by decide) passed offset b within rest

theorem scanFrom_allBlank (blank : line.all isBlank = true) (offset : Nat) (b : Bool) :
    scanFrom 0 offset b line = [] := by
  induction line generalizing offset b with
  | nil => rfl
  | cons c line ih =>
    obtain ⟨first, rest⟩ := Bool.and_eq_true_iff.mp blank
    rw [scanFrom_blank first]
    exact ih rest (offset + 1) true

/-- Only a line that begins with the end mark has it as its first piece. -/
theorem scanFrom_filled (filled : line.all isBlank = false) (offset : Nat) (b : Bool) :
    ∃ p ps, scanFrom 0 offset b line = p :: ps ∧
      (p.piece = .lexeme .endMark → isEndLine line = true) := by
  induction line generalizing offset b with
  | nil => cases filled
  | cons c line ih =>
    cases blank : isBlank c with
    | true =>
      have rest : line.all isBlank = false := by simpa [blank] using filled
      obtain ⟨p, ps, pieces, ends⟩ := ih rest (offset + 1) true
      refine ⟨p, ps, (scanFrom_blank blank b offset line).trans pieces, fun mark => ?_⟩
      simpa [isEndLine, blank] using ends mark
    | false =>
      rw [scanFrom, blank]
      refine ⟨_, _, rfl, fun mark => ?_⟩
      have start := text_pieceAt_prefix b c line
      rw [show pieceAt b c line = .lexeme .endMark from mark] at start
      have first : (c :: line).dropWhile isBlank = c :: line := by simp [blank]
      rw [isEndLine, first, decide_eq_true_eq]
      exact (List.prefix_iff_eq_take.mp start).symm

theorem notNewline_of_mem_scan {p : Placed} (oneLine : '\n' ∉ line) (found : p ∈ scan line) :
    p.piece ≠ .lexeme .newline := by
  intro newline
  have start := (text_of_mem_scan found).2
  rw [newline] at start
  exact oneLine (List.mem_of_mem_drop (start.subset (.head _)))

/-- The pieces of lines that stand one behind the other, each with the newline behind it. -/
def piecesOf (start : Nat) : List (List Char) → List Placed
  | [] => []
  | line :: lines => (scan line).map (·.moved start) ++
      ⟨.lexeme .newline, start + line.length⟩ :: piecesOf (start + line.length + 1) lines

theorem scanFrom_lines {lines : List (List Char)} (oneLines : ∀ line ∈ lines, '\n' ∉ line)
    (start : Nat) (rest : List Char) : scanFrom 0 start false (unlines lines ++ rest) =
      piecesOf start lines ++ scanFrom 0 (start + lineStart lines) false rest := by
  induction lines generalizing start with
  | nil => rfl
  | cons line lines ih =>
    have later := ih (fun l member => oneLines l (.tail _ member)) (start + line.length + 1)
    have first := scanFrom_moved start 0 0 false line
    rw [unlines_cons, List.append_assoc, List.cons_append,
      scanFrom_line 0 start false (Nat.zero_le _), later, lineStart_cons]
    rw [Nat.add_zero] at first
    rw [first]
    simp only [piecesOf, List.append_assoc, List.cons_append, scan, Nat.add_assoc]

/-- The pieces of a line stand in the text where the line stands. -/
theorem mem_scan_of_line {text : List Char} {before after : List (List Char)} {p : Placed}
    (split : splitLines text = before ++ line :: after) (found : p ∈ scan line) :
    p.moved (lineStart before) ∈ scan text := by
  have oneLines : ∀ l ∈ before ++ line :: after, '\n' ∉ l := fun l member =>
    oneLine_of_mem_splitLines (split ▸ member)
  obtain ⟨tail, rfl, -, ends⟩ := text_of_splitLines split
  rw [scan, scanFrom_lines fun l member => oneLines l (List.mem_append_left _ member)]
  refine List.mem_append_right _ ?_
  have moved := scanFrom_moved (0 + lineStart before) 0 0 false line
  rw [Nat.add_zero, Nat.zero_add] at moved
  have inLine : p.moved (lineStart before) ∈ scanFrom 0 (0 + lineStart before) false line := by
    rw [Nat.zero_add, moved]
    exact List.mem_map_of_mem found
  cases tail with
  | nil => rwa [List.append_nil]
  | cons c rest =>
    obtain rfl : c = '\n' := by simpa using ends
    rw [scanFrom_line 0 _ false (Nat.zero_le _)]
    exact List.mem_append_left _ inLine

/-- The pieces of a sheet with the line that ends it. -/
theorem scan_sheet (text : List Char) : ∃ offset, scan (sheetBody text ++ endLine) =
    piecesOf 0 (splitLines (sheetBody text)) ++ [⟨.lexeme .endMark, offset⟩] := by
  have whole : sheetBody text ++ endLine =
      unlines (splitLines (sheetBody text)) ++ ['E', 'O', 'F'] := by
    rw [splitLines_text, List.append_assoc]
    rfl
  rw [whole, scan, scanFrom_lines fun line => oneLine_of_mem_splitLines]
  exact ⟨_, rfl⟩

/-- Where no line begins with an end mark, none stands behind a newline or first. -/
theorem piecesOf_endMark {lines : List (List Char)} {front back : List Placed} {p : Placed}
    (oneLines : ∀ line ∈ lines, '\n' ∉ line) (plain : ∀ line ∈ lines, isEndLine line = false)
    (start : Nat) (pieces : piecesOf start lines = front ++ p :: back)
    (mark : p.piece = .lexeme .endMark) :
    ∃ us q, front = us ++ [q] ∧ q.piece ≠ .lexeme .newline := by
  induction lines generalizing start front with
  | nil => simp [piecesOf] at pieces
  | cons line lines ih =>
    obtain ⟨oneLine, oneLines⟩ := List.forall_mem_cons.mp oneLines
    obtain ⟨plainLine, plain⟩ := List.forall_mem_cons.mp plain
    rcases List.append_eq_append_iff.mp pieces with ⟨us, rfl, rest⟩ | ⟨us, inLine, rest⟩
    · cases us with
      | nil =>
        obtain ⟨same, -⟩ := List.cons.inj rest
        rw [← same] at mark
        cases mark
      | cons n us =>
        obtain ⟨-, later⟩ := List.cons.inj rest
        obtain ⟨vs, q, rfl, other⟩ := ih oneLines plain _ later
        exact ⟨(scan line).map (·.moved start) ++ n :: vs, q, by simp, other⟩
    · cases us with
      | nil =>
        obtain ⟨same, -⟩ := List.cons.inj rest
        rw [same] at mark
        cases mark
      | cons q us =>
        obtain ⟨rfl, -⟩ := List.cons.inj rest
        rcases List.eq_nil_or_concat front with rfl | ⟨vs, r, rfl⟩
        · -- The mark would be the first piece of the line.
          cases filled : line.all isBlank with
          | true => simp [scan, scanFrom_allBlank filled] at inLine
          | false =>
            obtain ⟨first, ps, found, ends⟩ := scanFrom_filled filled 0 false
            rw [scan, found, List.map_cons, List.nil_append] at inLine
            obtain ⟨rfl, -⟩ := List.cons.inj inLine
            cases plainLine.symm.trans (ends mark)
        · rw [List.concat_eq_append] at inLine ⊢
          have member : r ∈ (scan line).map (·.moved start) := by simp [inLine]
          obtain ⟨q, found, rfl⟩ := List.mem_map.mp member
          have other : q.piece ≠ .lexeme .newline := notNewline_of_mem_scan oneLine found
          exact ⟨vs, _, rfl, other⟩

/-! A line inside a sheet. -/

def Root.moved (start : Nat) : Root → Root
  | .first => .first
  | .body head equals => .body head (start + equals)

def Clause.moved (start : Nat) : Clause → Clause
  | .expression e => .expression e
  | .declaration head equals body => .declaration head (start + equals) body

/-- A site of a line that is read alone, where the line stands in a sheet. -/
def Site.onSheet (done : List Clause) (start : Nat) (site : Site) : Site :=
  { site with goal := .sheet, done, root := site.root.moved start }

def State.onSheet (done : List Clause) (start : Nat) : State → State
  | .inside site focus => .inside (site.onSheet done start) focus
  | s => s

variable {done : List Clause} {start offset : Nat} {site : Site}

theorem feedOperand_onSheet (site : Site) (l : Lexeme) :
    feedOperand (site.onSheet done start) l = (feedOperand site l).map (·.onSheet done start) := by
  cases l with
  | symbol s => cases s <;> rfl
  | _ => rfl

theorem feedWhole_onSheet (single : site.goal = .line) (notNewline : l ≠ .newline) (p : Phrase) :
    feedWhole (site.onSheet done start) p (start + offset) l =
      (feedWhole site p offset l).map (·.onSheet done start) := by
  obtain ⟨goal, before, root, frames, chain⟩ := site
  obtain rfl : goal = .line := single
  cases frames with
  | nil =>
    cases l with
    | newline => exact absurd rfl notNewline
    | equals => cases root <;> rfl
    | _ => rfl
  | cons top frames =>
    obtain ⟨frame, outer⟩ := top
    cases frame with
    | operand a =>
      cases l with
      | rightBrace =>
        simp only [feedWhole, Site.onSheet]
        split <;> rfl
      | _ => rfl
    | _ => cases l <;> rfl

-- A state that refuses differs in a sheet by what it expects, so only what is taken is compared.
theorem feedSettled_onSheet (single : site.goal = .line) (notNewline : l ≠ .newline) (p : Phrase) :
    (feedSettled (site.onSheet done start) p (start + offset) l).toOption =
      (feedSettled site p offset l).toOption.map (·.onSheet done start) := by
  have settled : (site.onSheet done start).settle p =
      ((site.settle p).1.onSheet done start, (site.settle p).2) := rfl
  have single' : (site.settle p).1.goal = .line := single
  simp only [feedSettled, settled, feedWhole_onSheet single' notNewline]
  cases feedWhole (site.settle p).1 (site.settle p).2 offset l <;> rfl

theorem feedIndex_onSheet (site : Site) (p : Phrase) (ending : Ending) :
    (feedIndex (site.onSheet done start) p ending).toOption =
      (feedIndex site p ending).toOption.map (·.onSheet done start) := by
  obtain ⟨goal, before, root, frames, chain⟩ := site
  cases ending with
  | plain | braced => rfl
  | indexed =>
    cases frames with
    | nil => rfl
    | cons top frames =>
      obtain ⟨frame, outer⟩ := top
      cases frame <;> rfl

theorem toOption_elim (fed : Option State) (refused : State) :
    (fed.elim (.error refused) .ok : Except State State).toOption = fed := by
  cases fed <;> rfl

theorem feedInside_onSheet (single : site.goal = .line) (notNewline : l ≠ .newline) (focus : Focus) :
    (feedInside (site.onSheet done start) focus (start + offset) l).toOption =
      (feedInside site focus offset l).toOption.map (·.onSheet done start) := by
  cases focus with
  | operand =>
    simp only [feedInside, toOption_elim]
    exact feedOperand_onSheet site l
  | whole p =>
    simp only [feedInside, toOption_elim]
    exact feedWhole_onSheet single notNewline p
  | value p ending =>
    cases l with
    | index => exact feedIndex_onSheet site p ending
    | newline => exact absurd rfl notNewline
    | equals | rightParen | rightBrace | comma => exact feedSettled_onSheet single notNewline p
    | _ => rfl
  | vecBrace use | vecName use => cases l <;> rfl
  | vecClose use => cases use <;> cases l <;> rfl
  | sumName =>
    cases l with
    | symbol s => cases s <;> rfl
    | _ => rfl
  | sumCaret =>
    cases l with
    | sign s => cases s <;> rfl
    | _ => rfl
  | _ => cases l <;> rfl

theorem toOption_eq_some {x : Except ε α} {a : α} (some : x.toOption = some a) : x = .ok a := by
  cases x with
  | error e => cases some
  | ok b => exact congrArg _ (Option.some.inj some)

theorem toOption_eq_none {x : Except ε α} (none : x.toOption = none) : ∃ e, x = .error e := by
  cases x with
  | error e => exact ⟨e, rfl⟩
  | ok b => cases none

theorem toOption_mapError (x : Except ε α) (f : ε → ε') : (x.mapError f).toOption = x.toOption := by
  cases x <;> rfl

theorem letter_ne_newline (s : State) (c : Char) :
    (if s.wantsName then Lexeme.scalar c else .callee c) ≠ .newline := by
  split <;> rintro ⟨⟩

theorem take_onSheet (single : site.goal = .line) (notNewline : l ≠ .newline) (focus : Focus) :
    ((State.inside (site.onSheet done start) focus).take (start + offset) l).toOption =
      ((State.inside site focus).take offset l).toOption.map (·.onSheet done start) := by
  cases l with
  | callee c =>
    simp only [State.take]
    have names : (State.inside (site.onSheet done start) focus).wantsName =
        (State.inside site focus).wantsName := by
      cases focus <;> rfl
    rw [names]
    exact feedInside_onSheet single (letter_ne_newline _ c) focus
  | _ => exact feedInside_onSheet single notNewline focus

theorem takePiece_onSheet {p : Placed} (single : site.goal = .line)
    (notNewline : p.piece ≠ .lexeme .newline) (focus : Focus) :
    ((State.inside (site.onSheet done start) focus).takePiece (p.moved start)).toOption =
      ((State.inside site focus).takePiece p).toOption.map (·.onSheet done start) := by
  obtain ⟨piece, offset⟩ := p
  cases piece with
  | lexeme l =>
    have different : l ≠ .newline := fun same => notNewline (congrArg _ same)
    simp only [State.takePiece, Placed.moved, toOption_mapError]
    exact take_onSheet single different focus
  | unknown word | stray c => rfl

/-- Inside a line the reader stays inside a statement. -/
theorem takePiece_inside {p : Placed} {focus : Focus} {t : State}
    (taken : (State.inside site focus).takePiece p = .ok t)
    (notNewline : p.piece ≠ .lexeme .newline) :
    ∃ site' focus', t = .inside site' focus' ∧ site'.goal = site.goal := by
  have effect : ∀ {l}, l ≠ .newline → Effect site p.start l t →
      ∃ site' focus', t = .inside site' focus' ∧ site'.goal = site.goal := by
    intro l different effect
    cases effect with
    | inside => exact ⟨_, _, rfl, rfl⟩
    | declares => exact ⟨_, _, rfl, rfl⟩
    | nextLine | ended => exact absurd rfl different
  cases piece : p.piece with
  | lexeme l =>
    have step := (State.takePiece_lexeme piece).mp taken
    have different : l ≠ .newline := fun same => notNewline (piece.trans (congrArg _ same))
    cases l with
    | callee c => exact effect (letter_ne_newline _ c) (feedInside_effect step)
    | _ => exact effect different (feedInside_effect step)
  | unknown word | stray c => simp [State.takePiece, piece] at taken

/-- The same is wrong, at a place that has moved with its line. -/
structure Moved (start : Nat) (r e : Rejection) : Prop where
  cause : e.cause = r.cause
  position : e.position = start + r.position

/-- A line read alone, and as a line of a sheet. -/
inductive Parallel (done : List Clause) (start : Nat) :
    Except Rejection State → Except Rejection State → Prop where
  | ok (site : Site) (focus : Focus) : site.goal = .line →
    Parallel done start (.ok (.inside site focus)) (.ok (.inside (site.onSheet done start) focus))
  | error : Moved start r e → Parallel done start (.error r) (.error e)

theorem Parallel.of_toOption {s s' : State} {p : Placed}
    (same : (s'.takePiece (p.moved start)).toOption =
      (s.takePiece p).toOption.map (·.onSheet done start))
    (within : ∀ t, s.takePiece p = .ok t → ∃ site focus, t = .inside site focus ∧ site.goal = .line) :
    Parallel done start (s.takePiece p) (s'.takePiece (p.moved start)) := by
  cases alone : s.takePiece p with
  | ok t =>
    rw [alone] at same
    obtain ⟨site, focus, rfl, single⟩ := within t alone
    rw [toOption_eq_some same]
    exact .ok site focus single
  | error r =>
    rw [alone] at same
    obtain ⟨e, inSheet⟩ := toOption_eq_none same
    obtain ⟨cause, position⟩ := takePiece_error alone
    obtain ⟨cause', position'⟩ := takePiece_error inSheet
    rw [inSheet]
    exact .error ⟨cause'.trans cause.symm, by rw [position', position]; rfl⟩

theorem Parallel.bind {x y : Except Rejection State} {qs : List Placed}
    (first : Parallel done start x y)
    (rest : ∀ (site : Site) (focus : Focus), site.goal = .line →
      Parallel done start ((State.inside site focus).takePieces ps)
        ((State.inside (site.onSheet done start) focus).takePieces qs)) :
    Parallel done start (x.bind (·.takePieces ps)) (y.bind (·.takePieces qs)) := by
  cases first with
  | ok site focus single => exact rest site focus single
  | error moved => exact .error moved

theorem takePieces_onSheet (single : site.goal = .line)
    (notNewline : ∀ p ∈ ps, p.piece ≠ .lexeme .newline) (focus : Focus) :
    Parallel done start ((State.inside site focus).takePieces ps)
      ((State.inside (site.onSheet done start) focus).takePieces (ps.map (·.moved start))) := by
  induction ps generalizing site focus with
  | nil => exact .ok site focus single
  | cons p ps ih =>
    have first := notNewline p (.head _)
    rw [List.map_cons, State.takePieces_cons, State.takePieces_cons]
    refine .bind (.of_toOption (takePiece_onSheet single first focus) ?_) ?_
    · intro t taken
      obtain ⟨site', focus', rfl, same⟩ := takePiece_inside taken first
      exact ⟨site', focus', rfl, same.trans single⟩
    · intro site' focus' single'
      exact ih single' (fun q member => notNewline q (.tail _ member)) focus'

/-! The first piece of a line. -/

theorem takePiece_fresh {p : Placed} (notNewline : p.piece ≠ .lexeme .newline)
    (notEnd : p.piece ≠ .lexeme .endMark) (goal : Goal) (done : List Clause) (b : Bool) :
    ((State.fresh goal done b).takePiece p).toOption =
      ((State.inside (.atStart goal done) .operand).takePiece p).toOption := by
  obtain ⟨piece, offset⟩ := p
  cases piece with
  | lexeme l =>
    simp only [State.takePiece, toOption_mapError]
    cases l with
    | newline => exact absurd rfl notNewline
    | endMark => exact absurd rfl notEnd
    | callee c =>
      simp only [State.take, State.feed, feedInside, toOption_elim]
      rfl
    | _ => simp only [State.take, State.feed, feedInside, toOption_elim]
  | unknown word | stray c => rfl

/-- Where a line begins, inside a sheet and alone. -/
theorem takePieces_line (oneLine : '\n' ∉ line) (filled : line.all isBlank = false)
    (plain : isEndLine line = false) (b : Bool) :
    Parallel done start ((State.start .line).takePieces (scan line))
      ((State.fresh .sheet done b).takePieces ((scan line).map (·.moved start))) := by
  have notNewline : ∀ p ∈ scan line, p.piece ≠ .lexeme .newline := fun p =>
    notNewline_of_mem_scan oneLine
  obtain ⟨p, ps, pieces, ends⟩ := scanFrom_filled filled 0 false
  rw [scan, pieces] at notNewline ⊢
  have first := notNewline p (.head _)
  have notEnd : p.piece ≠ .lexeme .endMark := fun mark => by
    rw [ends mark] at plain
    cases plain
  rw [List.map_cons, State.takePieces_cons, State.takePieces_cons]
  refine .bind (.of_toOption ?_ ?_) ?_
  · rw [takePiece_fresh (p := p.moved start) first notEnd, State.start, takePiece_fresh first notEnd]
    have single : (Site.atStart .line []).goal = .line := rfl
    exact takePiece_onSheet single first .operand
  · intro t taken
    have same := takePiece_fresh first notEnd .line [] false
    rw [State.start] at taken
    rw [taken] at same
    obtain ⟨site, focus, rfl, goal⟩ := takePiece_inside (toOption_eq_some same.symm) first
    exact ⟨site, focus, rfl, goal⟩
  · intro site focus single
    exact takePieces_onSheet single (fun q member => notNewline q (.tail _ member)) focus

/-! The newline behind a line. -/

theorem clause_onSheet (site : Site) (p : Phrase) :
    (site.onSheet done start).clause p = (site.clause p).moved start := by
  obtain ⟨_, _, root, _, _⟩ := site
  cases root <;> rfl

theorem feedWhole_newline (site : Site) (p : Phrase) (offset : Nat) :
    feedWhole (site.onSheet done start) p offset .newline =
      if site.frames.isEmpty then some (.fresh .sheet ((site.clause p).moved start :: done) true)
      else none := by
  rw [← clause_onSheet]
  obtain ⟨_, _, _, frames, _⟩ := site
  cases frames with
  | nil => rfl
  | cons top frames =>
    obtain ⟨frame, outer⟩ := top
    cases frame <;> rfl

/-- A newline ends a line of a sheet where the line alone could end. -/
theorem newline_onSheet (done : List Clause) (start : Nat) (single : site.goal = .line)
    (focus : Focus) (offset : Nat) :
    (∃ c, (State.inside site focus).finish = .ok [c] ∧
      (State.inside (site.onSheet done start) focus).takePiece ⟨.lexeme .newline, offset⟩ =
        .ok (.fresh .sheet (c.moved start :: done) true)) ∨
    ∃ t e, (State.inside site focus).finish = .error t ∧
      (State.inside (site.onSheet done start) focus).takePiece ⟨.lexeme .newline, offset⟩ =
        .error e := by
  cases focus with
  | value p ending =>
    have settled : (site.onSheet done start).settle p =
        ((site.settle p).1.onSheet done start, (site.settle p).2) := rfl
    have fed : (State.inside (site.onSheet done start) (.value p ending)).feed offset .newline =
        feedSettled (site.onSheet done start) p offset .newline := rfl
    have goal : (site.settle p).1.goal = .line := single
    simp only [State.takePiece, State.take, fed, feedSettled, settled, feedWhole_newline, State.finish,
      goal]
    cases (site.settle p).1.frames.isEmpty with
    | true => exact .inl ⟨_, rfl, rfl⟩
    | false => exact .inr ⟨_, _, rfl, rfl⟩
  | whole p =>
    have fed : (State.inside (site.onSheet done start) (.whole p)).feed offset .newline =
        (feedWhole (site.onSheet done start) p offset .newline).elim
          (.error (.inside (site.onSheet done start) (.whole p))) .ok := rfl
    simp only [State.takePiece, State.take, fed, feedWhole_newline, State.finish, single]
    cases site.frames.isEmpty with
    | true => exact .inl ⟨_, rfl, rfl⟩
    | false => exact .inr ⟨_, _, rfl, rfl⟩
  | vecClose use => cases use <;> exact .inr ⟨_, _, rfl, rfl⟩
  | _ => exact .inr ⟨_, _, rfl, rfl⟩

/-! Whole lines. -/

/-- A line that cannot be read alone is refused in a sheet for the same reason. If it only ends too early,
it is the newline behind it that does not fit. -/
inductive Refused (start : Nat) (line : List Char) (r e : Rejection) : Prop where
  | tooEarly : r.cause = .unexpected .endOfText "" → e.cause = .unexpected .newline "\n" →
    e.position = start + line.length → Refused start line r e
  | moved : r.cause ≠ .unexpected .endOfText "" → Moved start r e → Refused start line r e

theorem Piece.cause_ne_endOfText (piece : Piece) : piece.cause ≠ .unexpected .endOfText "" := by
  cases piece with
  | lexeme l =>
    intro same
    have terminal : l.terminal = .endOfText := (Cause.unexpected.inj same).1
    cases l with
    | symbol s => cases s <;> cases terminal
    | _ => cases terminal
  | unknown word | stray c => nofun

theorem readLine (oneLine : '\n' ∉ line) (filled : line.all isBlank = false)
    (plain : isEndLine line = false) (b : Bool) :
    (∃ c, readClauses .line line = .ok [c] ∧
      (State.fresh .sheet done b).takePieces
        ((scan line).map (·.moved start) ++ [⟨.lexeme .newline, start + line.length⟩]) =
          .ok (.fresh .sheet (c.moved start :: done) true)) ∨
    ∃ r e, readClauses .line line = .error r ∧ Refused start line r e ∧
      (State.fresh .sheet done b).takePieces
        ((scan line).map (·.moved start) ++ [⟨.lexeme .newline, start + line.length⟩]) = .error e := by
  have parallel : Parallel done start _ _ := takePieces_line oneLine filled plain b
  simp only [readClauses, bind, pure, State.takePieces_append]
  generalize alone : (State.start .line).takePieces (scan line) = x at parallel ⊢
  generalize (State.fresh .sheet done b).takePieces ((scan line).map (·.moved start)) = y at parallel ⊢
  cases parallel with
  | error moved =>
    obtain ⟨p, -, cause, -⟩ := takePieces_error alone
    exact .inr ⟨_, _, rfl, .moved (cause ▸ p.piece.cause_ne_endOfText) moved, rfl⟩
  | ok site focus single =>
    have one : ∀ s : State, s.takePieces [⟨.lexeme .newline, start + line.length⟩] =
        s.takePiece ⟨.lexeme .newline, start + line.length⟩ := by
      intro s
      rw [State.takePieces_cons]
      cases s.takePiece ⟨.lexeme .newline, start + line.length⟩ <;> rfl
    simp only [Except.bind, one]
    rcases newline_onSheet done start single focus (start + line.length) with
      ⟨c, finished, ended⟩ | ⟨t, e, finished, refused⟩
    · rw [finished, ended]
      exact .inl ⟨c, rfl, rfl⟩
    · obtain ⟨cause, position⟩ := takePiece_error refused
      rw [finished, refused]
      exact .inr ⟨_, _, rfl, .tooEarly rfl cause position, rfl⟩

end Formulary
