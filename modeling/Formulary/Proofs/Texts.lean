import Formulary.Proofs.Scanning
import Formulary.Proofs.Tracing

/-! Whole texts: what is read from a text is what the rules make of its lexemes, for an expression, a
statement and a sheet of statements. -/
namespace Formulary

inductive ReadsStatement (goal : Goal) : List Lexeme → Statement → Prop where
  | expression : Reads ls (.whole p) → ReadsStatement goal ls (.expression p.expr)
  | declaration : goal ≠ .formula → Reads ls (.whole p) → p.head = some head →
      Reads ks (.whole q) →
      ReadsStatement goal (ls ++ [.equals] ++ ks) (.declaration head q.expr)

/-- Statements in the order of the text, a newline behind each, with newlines between them. -/
inductive ReadsLines : List Lexeme → List Statement → Prop where
  | start : ReadsLines [] []
  | newline : ReadsLines ls sts → ReadsLines (ls ++ [.newline]) sts
  | statement : ReadsLines ls sts → ReadsStatement .sheet ks s →
      ReadsLines (ls ++ ks ++ [.newline]) (sts ++ [s])

def newlines (n : Nat) : List Lexeme := List.replicate n .newline

/-- The lexemes of a text, read as a goal asks. -/
inductive ReadsText : Goal → List Lexeme → List Statement → Prop where
  | single : goal ≠ .sheet → ReadsStatement goal ks s →
      ReadsText goal (newlines n ++ ks ++ newlines m) [s]
  | sheet : ReadsLines ls sts → ReadsText .sheet (ls ++ [.endMark]) sts

/-- The lexemes of a text with the statements read from it, the latest first and not judged yet. -/
inductive ReadsClauses : Goal → List Lexeme → List Clause → Prop where
  | single : goal ≠ .sheet → ReadsClause goal ks c →
      ReadsClauses goal (newlines n ++ ks ++ newlines m) [c]
  | sheet : ReadsDone .sheet done ls → ReadsClauses .sheet (ls ++ [.endMark]) done

/-! From the reader to the rules. -/

/-- Where a letter can only be a name, it is not followed by a parenthesis. -/
theorem take_callee_name {s t : State} (name : s.wantsName = true)
    (taken : s.take offset (.callee f) = .ok t) (offset' : Nat) :
    t.take offset' .leftParen = .error t := by
  unfold State.wantsName at name
  split at name
  · next use =>
    cases taken
    cases use <;> rfl
  · cases taken
    rfl
  · cases name

theorem feedWhole_follows (fed : feedWhole site p offset l = some t) : follows l = true := by
  unfold feedWhole at fed
  split at fed
  · unfold feedRoot at fed
    split at fed <;> first | rfl | cases fed
  · split at fed <;> first | rfl | cases fed

theorem take_vec {s t : State} (taken : s.take offset (.symbol .vec) = .ok t) :
    ∃ site use, t = .inside site (.vecBrace use) := by
  cases s with
  | fresh goal done afterNewline =>
    cases taken
    exact ⟨_, _, rfl⟩
  | inside site focus =>
    cases focus with
    | operand | sumName =>
      cases taken
      exact ⟨_, _, rfl⟩
    | whole => exact nomatch feedWhole_follows (elim_ok taken)
    | vecClose use => cases use <;> cases taken
    | _ => cases taken
  | ended | sealed => cases taken

theorem take_sum {s t : State} (taken : s.take offset (.symbol .sum) = .ok t) :
    ∃ site, t = .inside site .sumBrace := by
  cases s with
  | fresh goal done afterNewline =>
    cases taken
    exact ⟨_, rfl⟩
  | inside site focus =>
    cases focus with
    | operand =>
      cases taken
      exact ⟨_, rfl⟩
    | whole => exact nomatch feedWhole_follows (elim_ok taken)
    | vecClose use => cases use <;> cases taken
    | _ => cases taken
  | ended | sealed => cases taken

theorem feed_of_take {s t : State} (taken : s.take offset l = .ok t)
    (letter : ∀ f, l = .callee f → s.wantsName = false) : s.feed offset l = .ok t := by
  unfold State.take at taken
  split at taken
  · next f =>
    rw [letter f rfl, if_neg Bool.false_ne_true] at taken
    exact taken
  · exact taken

theorem take_reads {s t : State} (held : StateReads goal ls s) (taken : s.take offset l = .ok t)
    (letter : ∀ f, l = .callee f → s.wantsName = false) : StateReads goal (ls ++ [l]) t :=
  feed_reads held (feed_of_take taken letter)

/-- A run falls in two wherever its lexemes do. -/
theorem takePieces_split {s t : State} {ls ks : List Lexeme} {ps : List Placed}
    (taken : s.takePieces ps = .ok t) (pieces : ps.map (·.piece) = (ls ++ ks).map .lexeme) :
    ∃ (s' : State) (front back : List Placed), front.map (·.piece) = ls.map .lexeme ∧
      back.map (·.piece) = ks.map .lexeme ∧ s.takePieces front = .ok s' ∧
        s'.takePieces back = .ok t := by
  rw [List.map_append] at pieces
  obtain ⟨front, back, rfl, frontPieces, backPieces⟩ := List.map_eq_append_iff.mp pieces
  obtain ⟨s', first, last⟩ := State.takePieces_append_eq_ok.mp taken
  exact ⟨s', front, back, frontPieces, backPieces, first, last⟩

theorem takePieces_mid {s t : State} {us ks vs : List Lexeme} {ps : List Placed}
    (taken : s.takePieces ps = .ok t) (pieces : ps.map (·.piece) = (us ++ ks ++ vs).map .lexeme) :
    ∃ (s' t' : State) (qs : List Placed), qs.map (·.piece) = ks.map .lexeme ∧
      s'.takePieces qs = .ok t' := by
  obtain ⟨t', front, -, frontPieces, -, first, -⟩ := takePieces_split taken pieces
  obtain ⟨s', -, qs, -, found, -, run⟩ := takePieces_split first frontPieces
  exact ⟨s', t', qs, found, run⟩

theorem takePieces_cons_ok {s t : State} {ls : List Lexeme} {ps : List Placed}
    (taken : s.takePieces ps = .ok t) (pieces : ps.map (·.piece) = (l :: ls).map .lexeme) :
    ∃ (u : State) (offset : Nat) (qs : List Placed), s.take offset l = .ok u ∧
      qs.map (·.piece) = ls.map .lexeme ∧ u.takePieces qs = .ok t := by
  obtain ⟨p, qs, rfl, piece, tail⟩ := List.map_eq_cons_iff.mp pieces
  obtain ⟨u, first, last⟩ := State.takePieces_cons_eq_ok.mp taken
  exact ⟨u, p.start, qs, (State.takePiece_lexeme piece).mp first, tail, last⟩

theorem takePieces_lexemes {s t : State} {ps : List Placed} (taken : s.takePieces ps = .ok t) :
    ∃ ls : List Lexeme, ps.map (·.piece) = ls.map .lexeme := by
  induction ps generalizing s with
  | nil => exact ⟨[], rfl⟩
  | cons p ps ih =>
    obtain ⟨u, first, last⟩ := State.takePieces_cons_eq_ok.mp taken
    obtain ⟨ls, pieces⟩ := ih last
    cases piece : p.piece with
    | lexeme l => exact ⟨l :: ls, by simp [piece, pieces]⟩
    | unknown word | stray c => simp [State.takePiece, piece] at first

/-- What is read of the front of a text, if the reader gets through all of it. -/
theorem takePieces_reads_front {s t u : State} {ps qs : List Placed} (held : StateReads goal ks s)
    (read : Scans b text (ls ++ ms) b' []) (pieces : ps.map (·.piece) = ls.map .lexeme)
    (taken : s.takePieces ps = .ok t) (behind : qs.map (·.piece) = ms.map .lexeme)
    (rest : t.takePieces qs = .ok u) : StateReads goal (ks ++ ls) t := by
  induction ls generalizing ks s ps b text with
  | nil =>
    obtain rfl : ps = [] := by simpa using pieces
    cases taken
    simpa using held
  | cons l ls ih =>
    obtain ⟨p, ps, rfl, piece, tail⟩ := List.map_eq_cons_iff.mp pieces
    obtain ⟨v, first, later⟩ := State.takePieces_cons_eq_ok.mp taken
    have step := (State.takePiece_lexeme piece).mp first
    have letter : ∀ f, l = .callee f → s.wantsName = false := by
      rintro f rfl
      cases name : s.wantsName with
      | false => rfl
      | true =>
        have all := State.takePieces_append_eq_ok.mpr ⟨t, later, rest⟩
        have lexemes : (ps ++ qs).map (·.piece) = (ls ++ ms).map .lexeme := by
          rw [List.map_append, List.map_append, tail, behind]
        have next : (ls ++ ms).head? = some .leftParen := Scans.callee_next read
        obtain ⟨others, same⟩ := List.head?_eq_some_iff.mp next
        rw [same] at lexemes
        obtain ⟨w, offset, -, second, -, -⟩ := takePieces_cons_ok all lexemes
        cases (take_callee_name name step offset).symm.trans second
    have whole : Scans b text ([l] ++ (ls ++ ms)) b' [] := read
    obtain ⟨b₁, middle, -, others⟩ := whole.cut
    simpa using ih (take_reads held step letter) others tail later

theorem takePieces_reads {s t : State} {ps : List Placed} (held : StateReads goal ks s)
    (read : Scans b text ls b' []) (pieces : ps.map (·.piece) = ls.map .lexeme)
    (taken : s.takePieces ps = .ok t) : StateReads goal (ks ++ ls) t := by
  have nothing : ([] : List Placed).map (·.piece) = ([] : List Lexeme).map .lexeme := rfl
  rw [← List.append_nil ls] at read
  exact takePieces_reads_front held read pieces taken nothing rfl

theorem ReadsDone.newlines (done : ReadsDone goal [] ls) : ∃ n, ls = newlines n := by
  generalize none : ([] : List Clause) = clauses at done
  induction done with
  | start => exact ⟨0, rfl⟩
  | newline _ ih =>
    obtain ⟨n, rfl⟩ := ih none
    exact ⟨n + 1, List.replicate_succ'.symm⟩
  | clause => cases none

theorem ReadsClause.statement (clause : ReadsClause goal ks c) (judged : c.statement = .ok s) :
    ReadsStatement goal ks s := by
  cases clause with
  | expression whole =>
    cases judged
    exact .expression whole
  | @declaration _ p _ q equals declares head body =>
    cases named : p.head with
    | none => simp [Clause.statement, named] at judged
    | some h =>
      obtain rfl : Statement.declaration h q.expr = s := by
        simpa [Clause.statement, named] using judged
      exact .declaration declares head named body

theorem mapM_snoc_ok {f : α → Except ε β} {as : List α} {a : α} {bs : List β} :
    (as ++ [a]).mapM f = .ok bs ↔ ∃ cs c, as.mapM f = .ok cs ∧ f a = .ok c ∧ bs = cs ++ [c] := by
  rw [List.mapM_append, List.mapM_cons, List.mapM_nil]
  cases as.mapM f with
  | error e => simp [bind, Except.bind]
  | ok cs => cases f a <;> simp [bind, Except.bind, pure, Except.pure, eq_comm]

theorem ReadsDone.lines (done : ReadsDone .sheet clauses ls)
    (judged : clauses.reverse.mapM Clause.statement = .ok sts) : ReadsLines ls sts := by
  generalize sheet : Goal.sheet = goal at done
  induction done generalizing sts with
  | start =>
    cases judged
    exact .start
  | newline _ ih => exact .newline (ih judged sheet)
  | clause _ clause ih =>
    rw [List.reverse_cons] at judged
    obtain ⟨ss, s, before, last, rfl⟩ := mapM_snoc_ok.mp judged
    exact .statement (ih before rfl) (clause.statement last)

/-- Outside every construct a whole expression can end the text. -/
theorem SiteReads.atEnd (held : SiteReads goal site ws) (outermost : site.frames = [])
    (fresh : site.chain = []) (single : site.goal ≠ .sheet) (read : Reads ks (.whole p)) :
    ReadsClauses goal (ws ++ ks) [site.clause p] := by
  obtain ⟨us, vs, split, done, clause⟩ := held.clause outermost fresh read
  have notSheet : goal ≠ .sheet := held.1 ▸ single
  rw [done.empty notSheet] at done
  obtain ⟨n, rfl⟩ := done.newlines
  simpa [split, newlines] using ReadsClauses.single (n := n) (m := 0) notSheet clause

/-- A text that can end where the reader is has been read as its goal asks. -/
theorem StateReads.finish {t : State} (held : StateReads goal ls t)
    (finished : t.finish = .ok clauses) : ReadsClauses goal ls clauses := by
  cases held with
  | fresh => cases finished
  | sealed sheet done =>
    subst sheet
    cases finished
    exact .sheet done
  | ended single before clause =>
    cases finished
    obtain ⟨n, rfl⟩ := before.newlines
    exact .single single clause
  | @inside site ws fs focus held leads =>
    cases focus with
    | value p ending =>
      obtain ⟨us, vs, split, settled, whole⟩ := held.settle leads
      simp only [State.finish] at finished
      split at finished
      · next final =>
        simp only [Bool.and_eq_true, decide_eq_true_eq, List.isEmpty_iff] at final
        cases finished
        rw [split]
        exact settled.atEnd final.1 rfl final.2 whole
      · cases finished
    | whole => exact leads.elim
    | _ => cases finished

theorem ReadsClauses.text (read : ReadsClauses goal ls clauses)
    (judged : clauses.reverse.mapM Clause.statement = .ok sts) : ReadsText goal ls sts := by
  cases read with
  | @single _ ks c n m single clause =>
    obtain ⟨ss, s, empty, last, rfl⟩ := mapM_snoc_ok.mp (show ([] ++ [c]).mapM _ = _ from judged)
    cases empty
    exact .single single (clause.statement last)
  | sheet done => exact .sheet (done.lines judged)

/-! From the rules to the reader. -/

theorem feed_fresh {l : Lexeme} (notNewline : l ≠ .newline) (notEnd : l ≠ .endMark) (goal : Goal)
    (done : List Clause) (afterNewline : Bool) (offset : Nat) :
    (State.fresh goal done afterNewline).feed offset l =
      (feedOperand (.atStart goal done) l).elim (.error (.fresh goal done afterNewline)) .ok := by
  cases l with
  | newline => exact absurd rfl notNewline
  | endMark => exact absurd rfl notEnd
  | _ => rfl

/-- What begins an operand begins a statement. -/
theorem feed_first {t : State} (afterNewline : Bool)
    (fed : (State.inside (.atStart goal done) .operand).feed offset l = .ok t) :
    (State.fresh goal done afterNewline).feed offset l = .ok t := by
  have notNewline : l ≠ .newline := by
    rintro rfl
    cases fed
  have notEnd : l ≠ .endMark := by
    rintro rfl
    cases fed
  have first : feedOperand (.atStart goal done) l = some t := elim_ok fed
  rw [feed_fresh notNewline notEnd, first]
  rfl

theorem Reads.run_fresh (read : Reads ls (.whole p)) (goal : Goal) (done : List Clause)
    (afterNewline : Bool) : ∃ site q ending,
      (State.fresh goal done afterNewline).Reaches ls (.inside site (.value q ending)) ∧
        site.settle q = (.atStart goal done, p) := by
  obtain ⟨site, q, ending, run, settled⟩ := read.run (.atStart goal done) rfl
  refine ⟨site, q, ending, ?_, settled⟩
  cases run with
  | cons step rest => exact .cons (fun offset => feed_first afterNewline (step offset)) rest

/-- An expression outside every construct is the head of a declaration with the sign behind it. -/
theorem feed_equals {site : Site} {q : Phrase} (declares : goal ≠ .formula)
    (settled : site.settle q = (.atStart goal done, p)) (ending : Ending) (offset : Nat) :
    (State.inside site (.value q ending)).feed offset .equals =
      .ok (.inside { Site.atStart goal done with root := .body p.head offset } .operand) := by
  change feedSettled site q offset .equals = _
  rw [feedSettled, settled]
  cases goal with
  | formula => exact absurd rfl declares
  | line | sheet => rfl

theorem feed_newline_ended {site : Site} {p : Phrase} (outermost : (site.settle p).1.frames = [])
    (single : (site.settle p).1.goal ≠ .sheet) (ending : Ending) (offset : Nat) :
    (State.inside site (.value p ending)).feed offset .newline =
      .ok (.ended ((site.settle p).1.clause (site.settle p).2)) := by
  change feedSettled site p offset .newline = _
  simp only [feedSettled, feedWhole, outermost, feedRoot]

theorem feed_newline_fresh {site : Site} {p : Phrase} (outermost : (site.settle p).1.frames = [])
    (sheet : (site.settle p).1.goal = .sheet) (ending : Ending) (offset : Nat) :
    (State.inside site (.value p ending)).feed offset .newline = .ok
      (.fresh .sheet ((site.settle p).1.clause (site.settle p).2 :: (site.settle p).1.done) true) := by
  change feedSettled site p offset .newline = _
  simp only [feedSettled, feedWhole, outermost, feedRoot, sheet]

/-- Behind a value that makes a statement complete. -/
structure Completes (goal : Goal) (done : List Clause) (s : Statement) (site : Site) (p : Phrase) :
    Prop where
  outermost : (site.settle p).1.frames = []
  goal_eq : (site.settle p).1.goal = goal
  done_eq : (site.settle p).1.done = done
  judged : ((site.settle p).1.clause (site.settle p).2).statement = .ok s

theorem ReadsStatement.run (read : ReadsStatement goal ks s) (done : List Clause)
    (afterNewline : Bool) {ps : List Placed} (pieces : ps.map (·.piece) = ks.map .lexeme) :
    ∃ site p ending, (State.fresh goal done afterNewline).takePieces ps =
      .ok (.inside site (.value p ending)) ∧ Completes goal done s site p := by
  cases read with
  | expression whole =>
    obtain ⟨site, q, ending, run, settled⟩ := whole.run_fresh goal done afterNewline
    exact ⟨site, q, ending, run.takePieces pieces,
      ⟨by rw [settled]; rfl, by rw [settled]; rfl, by rw [settled]; rfl, by rw [settled]; rfl⟩⟩
  | @declaration ls p head us body declares target named definition =>
    rw [List.map_append] at pieces
    obtain ⟨front, back, rfl, frontPieces, backPieces⟩ := List.map_eq_append_iff.mp pieces
    rw [List.map_append] at frontPieces
    obtain ⟨left, middle, rfl, leftPieces, middlePieces⟩ := List.map_eq_append_iff.mp frontPieces
    obtain ⟨e, rfl, equals⟩ := List.map_eq_singleton_iff.mp middlePieces
    obtain ⟨site, q, ending, run, settled⟩ := target.run_fresh goal done afterNewline
    let root : Site := { Site.atStart goal done with root := .body p.head e.start }
    have step : (State.inside site (.value q ending)).take e.start .equals =
        .ok (.inside root .operand) := feed_equals declares settled ending e.start
    obtain ⟨site', q', ending', run', settled'⟩ := definition.run root rfl
    refine ⟨site', q', ending', ?_, ⟨by rw [settled']; rfl, by rw [settled']; rfl,
      by rw [settled']; rfl, ?_⟩⟩
    · have first := State.takePieces_append_eq_ok.mpr
        ⟨_, run.takePieces leftPieces, State.takePieces_lexeme equals step⟩
      exact State.takePieces_append_eq_ok.mpr ⟨_, first, run'.takePieces backPieces⟩
    · rw [settled']
      change (Clause.declaration p.head e.start _).statement = _
      rw [named]
      rfl

namespace Completes

theorem finish (complete : Completes goal done s site p) (single : goal ≠ .sheet)
    (ending : Ending) : ∃ c, (State.inside site (.value p ending)).finish = .ok [c] ∧
      c.statement = .ok s := by
  obtain ⟨outermost, goal_eq, done_eq, judged⟩ := complete
  refine ⟨_, ?_, judged⟩
  simp [State.finish, outermost, goal_eq, single]

theorem newline (complete : Completes goal done s site p) (single : goal ≠ .sheet)
    (ending : Ending) (offset : Nat) : ∃ c,
      (State.inside site (.value p ending)).take offset .newline = .ok (.ended c) ∧
        c.statement = .ok s := by
  obtain ⟨outermost, goal_eq, done_eq, judged⟩ := complete
  exact ⟨_, feed_newline_ended outermost (goal_eq ▸ single) ending offset, judged⟩

theorem nextLine (complete : Completes .sheet done s site p) (ending : Ending) (offset : Nat) :
    ∃ c, (State.inside site (.value p ending)).take offset .newline =
      .ok (.fresh .sheet (c :: done) true) ∧ c.statement = .ok s := by
  obtain ⟨outermost, goal_eq, done_eq, judged⟩ := complete
  have step := feed_newline_fresh outermost goal_eq ending offset
  rw [done_eq] at step
  exact ⟨_, step, judged⟩

end Completes

theorem fresh_newlines (goal : Goal) (done : List Clause) (afterNewline : Bool) {ps : List Placed}
    (pieces : ps.map (·.piece) = (newlines n).map .lexeme) :
    ∃ b, (State.fresh goal done afterNewline).takePieces ps = .ok (.fresh goal done b) := by
  induction n generalizing ps afterNewline with
  | zero =>
    obtain rfl : ps = [] := by simpa [newlines] using pieces
    exact ⟨afterNewline, rfl⟩
  | succ n ih =>
    obtain ⟨p, ps, rfl, piece, tail⟩ := List.map_eq_cons_iff.mp pieces
    obtain ⟨b, run⟩ := ih true tail
    refine ⟨b, ?_⟩
    have step : (State.fresh goal done afterNewline).take p.start .newline =
      .ok (.fresh goal done true) := rfl
    exact State.takePieces_cons_eq_ok.mpr ⟨_, (State.takePiece_lexeme piece).mpr step, run⟩

theorem ended_newlines {clause : Clause} {ps : List Placed}
    (pieces : ps.map (·.piece) = (newlines n).map .lexeme) :
    (State.ended clause).takePieces ps = .ok (.ended clause) := by
  induction n generalizing ps with
  | zero =>
    obtain rfl : ps = [] := by simpa [newlines] using pieces
    rfl
  | succ n ih =>
    obtain ⟨p, ps, rfl, piece, tail⟩ := List.map_eq_cons_iff.mp pieces
    have step : (State.ended clause).take p.start .newline = .ok (.ended clause) := rfl
    exact State.takePieces_cons_eq_ok.mpr ⟨_, (State.takePiece_lexeme piece).mpr step, ih tail⟩

/-- The newlines behind the only statement of a text. -/
theorem Completes.newlines (complete : Completes goal [] s site p) (single : goal ≠ .sheet)
    (ending : Ending) {ps : List Placed}
    (pieces : ps.map (·.piece) = (newlines n).map .lexeme) :
    ∃ t c, (State.inside site (.value p ending)).takePieces ps = .ok t ∧ t.finish = .ok [c] ∧
      c.statement = .ok s := by
  cases n with
  | zero =>
    obtain rfl : ps = [] := by simpa [Formulary.newlines] using pieces
    obtain ⟨c, finished, judged⟩ := complete.finish single ending
    exact ⟨_, c, rfl, finished, judged⟩
  | succ n =>
    obtain ⟨first, ps, rfl, piece, tail⟩ := List.map_eq_cons_iff.mp pieces
    obtain ⟨c, step, judged⟩ := complete.newline single ending first.start
    have run := State.takePieces_cons_eq_ok.mpr
      ⟨_, (State.takePiece_lexeme piece).mpr step, ended_newlines tail⟩
    exact ⟨.ended c, c, run, rfl, judged⟩

theorem ReadsLines.run (read : ReadsLines ls sts) {ps : List Placed}
    (pieces : ps.map (·.piece) = ls.map .lexeme) :
    ∃ done b, (State.start .sheet).takePieces ps = .ok (.fresh .sheet done b) ∧
      done.reverse.mapM Clause.statement = .ok sts := by
  induction read generalizing ps with
  | start =>
    obtain rfl : ps = [] := by simpa using pieces
    exact ⟨[], false, rfl, rfl⟩
  | newline _ ih =>
    rw [List.map_append] at pieces
    obtain ⟨front, back, rfl, frontPieces, backPieces⟩ := List.map_eq_append_iff.mp pieces
    obtain ⟨done, b, run, judged⟩ := ih frontPieces
    obtain ⟨b', last⟩ := fresh_newlines (n := 1) .sheet done b backPieces
    exact ⟨done, b', State.takePieces_append_eq_ok.mpr ⟨_, run, last⟩, judged⟩
  | statement _ statement ih =>
    rw [List.map_append, List.map_append] at pieces
    obtain ⟨front, back, rfl, frontPieces, backPieces⟩ := List.map_eq_append_iff.mp pieces
    obtain ⟨before, line, rfl, beforePieces, linePieces⟩ := List.map_eq_append_iff.mp frontPieces
    obtain ⟨done, b, run, judged⟩ := ih beforePieces
    obtain ⟨site, p, ending, read, complete⟩ := statement.run done b linePieces
    obtain ⟨e, rfl, newline⟩ := List.map_eq_singleton_iff.mp backPieces
    obtain ⟨c, step, last⟩ := complete.nextLine ending e.start
    refine ⟨c :: done, true, ?_, ?_⟩
    · have upTo := State.takePieces_append_eq_ok.mpr ⟨_, run, read⟩
      exact State.takePieces_append_eq_ok.mpr ⟨_, upTo, State.takePieces_lexeme newline step⟩
    · rw [List.reverse_cons]
      exact mapM_snoc_ok.mpr ⟨_, _, judged, last, rfl⟩

/-- A text that the rules read is read to its end. -/
theorem ReadsText.run (read : ReadsText goal ls sts) {ps : List Placed}
    (pieces : ps.map (·.piece) = ls.map .lexeme) :
    ∃ t clauses, (State.start goal).takePieces ps = .ok t ∧ t.finish = .ok clauses ∧
      clauses.reverse.mapM Clause.statement = .ok sts := by
  cases read with
  | single notSheet statement =>
    rw [List.map_append, List.map_append] at pieces
    obtain ⟨front, back, rfl, frontPieces, backPieces⟩ := List.map_eq_append_iff.mp pieces
    obtain ⟨before, line, rfl, beforePieces, linePieces⟩ := List.map_eq_append_iff.mp frontPieces
    obtain ⟨b, run⟩ := fresh_newlines goal [] false beforePieces
    obtain ⟨site, p, ending, read, complete⟩ := statement.run [] b linePieces
    obtain ⟨t, c, last, finished, judged⟩ := complete.newlines notSheet ending backPieces
    refine ⟨t, [c], ?_, finished, ?_⟩
    · have upTo := State.takePieces_append_eq_ok.mpr ⟨_, run, read⟩
      exact State.takePieces_append_eq_ok.mpr ⟨_, upTo, last⟩
    · exact (mapM_snoc_ok : ([] ++ [c]).mapM _ = _ ↔ _).mpr ⟨[], _, rfl, judged, rfl⟩
  | sheet lines =>
    rw [List.map_append] at pieces
    obtain ⟨front, back, rfl, frontPieces, backPieces⟩ := List.map_eq_append_iff.mp pieces
    obtain ⟨done, b, run, judged⟩ := lines.run frontPieces
    obtain ⟨e, rfl, endMark⟩ := List.map_eq_singleton_iff.mp backPieces
    have step : (State.fresh .sheet done b).take e.start .endMark = .ok (.sealed done) := rfl
    have all := State.takePieces_append_eq_ok.mpr ⟨_, run, State.takePieces_lexeme endMark step⟩
    exact ⟨.sealed done, done, all, rfl, judged⟩

/-! The reading functions. -/

theorem readClauses_eq_ok {text : List Char} : readClauses goal text = .ok clauses ↔
    ∃ t, (State.start goal).takePieces (scan text) = .ok t ∧ t.finish = .ok clauses.reverse := by
  constructor
  · intro ok
    obtain ⟨t, run, last⟩ := bind_eq_ok.mp ok
    obtain ⟨cs, finished, ⟨⟩⟩ := bind_eq_ok.mp last
    refine ⟨t, run, ?_⟩
    rw [List.reverse_reverse]
    exact mapError_eq_ok.mp finished
  · rintro ⟨t, run, finished⟩
    refine bind_eq_ok.mpr ⟨t, run, bind_eq_ok.mpr ⟨_, mapError_eq_ok.mpr finished, ?_⟩⟩
    rw [List.reverse_reverse]
    rfl

theorem readStatements_ok {text : List Char} {t : State}
    (run : (State.start goal).takePieces (scan text) = .ok t) (finished : t.finish = .ok clauses)
    (judged : clauses.reverse.mapM Clause.statement = .ok sts) :
    readStatements goal text = .ok sts := by
  have read : readClauses goal text = .ok clauses.reverse :=
    readClauses_eq_ok.mpr ⟨t, run, by rwa [List.reverse_reverse]⟩
  exact bind_eq_ok.mpr ⟨_, read, judged⟩

theorem readStatements_run {text : List Char} (ok : readStatements goal text = .ok sts) :
    ∃ t clauses, (State.start goal).takePieces (scan text) = .ok t ∧ t.finish = .ok clauses ∧
      clauses.reverse.mapM Clause.statement = .ok sts := by
  obtain ⟨clauses, read, judged⟩ := bind_eq_ok.mp ok
  obtain ⟨t, run, finished⟩ := readClauses_eq_ok.mp read
  exact ⟨t, clauses.reverse, run, finished, by rwa [List.reverse_reverse]⟩

/-- What a text is read as is what the rules make of its lexemes. -/
theorem readStatements_ok_iff (goal : Goal) (text : List Char) (sts : List Statement) :
    readStatements goal text = .ok sts ↔ ∃ ls, Lexes text ls ∧ ReadsText goal ls sts := by
  constructor
  · intro ok
    obtain ⟨t, clauses, run, finished, judged⟩ := readStatements_run ok
    obtain ⟨ls, pieces⟩ := takePieces_lexemes run
    obtain ⟨b, scans⟩ := (scan_eq_lexemes_iff text ls).mp pieces
    have held := takePieces_reads (stateReads_start goal) scans pieces run
    exact ⟨ls, ⟨b, scans⟩, (held.finish finished).text judged⟩
  · rintro ⟨ls, lexes, read⟩
    obtain ⟨t, clauses, run, finished, judged⟩ := read.run ((scan_eq_lexemes_iff text ls).mpr lexes)
    exact readStatements_ok run finished judged

/-- A text whose first lexemes lead to a state, and whose other lexemes are taken from there. -/
theorem readStatements_from {text rest : List Char} {t t' : State} (held : StateReads goal us t)
    (before : Scans false text us b₁ rest) (after : Scans b₁ rest ns b []) {ps : List Placed}
    (pieces : ps.map (·.piece) = ns.map .lexeme) (taken : t.takePieces ps = .ok t')
    (finished : t'.finish = .ok clauses) (judged : clauses.reverse.mapM Clause.statement = .ok sts) :
    readStatements goal text = .ok sts := by
  have whole := takePieces_reads held after pieces taken
  exact (readStatements_ok_iff _ _ _).mpr
    ⟨_, ⟨b, before.trans after⟩, (whole.finish finished).text judged⟩

theorem parseStatement_eq_ok_iff (text : List Char) (s : Statement) :
    parseStatement text = .ok s ↔ readStatements .line text = .ok [s] := by
  constructor
  · intro ok
    simp only [parseStatement, bind, Except.bind] at ok
    cases read : readStatements .line text with
    | error r => simp [read] at ok
    | ok sts =>
      obtain ⟨ls, -, kind⟩ := (readStatements_ok_iff _ _ _).mp read
      cases kind with
      | single => simpa [read] using ok
  · intro ok
    simp [parseStatement, ok, bind, Except.bind]

theorem parseStatement_ok_iff (text : List Char) (s : Statement) :
    parseStatement text = .ok s ↔ ∃ n ks m,
      Lexes text (newlines n ++ ks ++ newlines m) ∧ ReadsStatement .line ks s := by
  rw [parseStatement_eq_ok_iff, readStatements_ok_iff]
  constructor
  · rintro ⟨ls, lexes, kind⟩
    cases kind with
    | single _ statement => exact ⟨_, _, _, lexes, statement⟩
  · rintro ⟨n, ks, m, lexes, statement⟩
    exact ⟨_, lexes, .single nofun statement⟩

theorem parseExpression_eq_ok_iff (text : List Char) (e : Expression) :
    parseExpression text = .ok e ↔ readStatements .formula text = .ok [.expression e] := by
  constructor
  · intro ok
    simp only [parseExpression, bind, Except.bind] at ok
    cases read : readStatements .formula text with
    | error r => simp [read] at ok
    | ok sts =>
      obtain ⟨ls, -, kind⟩ := (readStatements_ok_iff _ _ _).mp read
      cases kind with
      | single _ statement =>
        cases statement with
        | expression whole => simpa [read] using ok
        | declaration declares => exact absurd rfl declares
  · intro ok
    simp [parseExpression, ok, bind, Except.bind]

theorem parseExpression_ok_iff (text : List Char) (e : Expression) :
    parseExpression text = .ok e ↔ ∃ n ks m p,
      Lexes text (newlines n ++ ks ++ newlines m) ∧ Reads ks (.whole p) ∧ p.expr = e := by
  rw [parseExpression_eq_ok_iff, readStatements_ok_iff]
  constructor
  · rintro ⟨ls, lexes, kind⟩
    cases kind with
    | single _ statement =>
      cases statement with
      | expression whole => exact ⟨_, _, _, _, lexes, whole, rfl⟩
  · rintro ⟨n, ks, m, p, lexes, whole, rfl⟩
    exact ⟨_, lexes, .single nofun (.expression whole)⟩

theorem parseSheet_eq_ok_iff (text : List Char) (sheet : Sheet) : parseSheet text = .ok sheet ↔
    readStatements .sheet (sheetBody text ++ endLine) = .ok sheet := by
  cases read : readStatements .sheet (sheetBody text ++ endLine) <;>
    simp [parseSheet, read, mapError_ok, mapError_error]

theorem parseSheet_ok_iff (text : List Char) (sheet : Sheet) :
    parseSheet text = .ok sheet ↔ ∃ ls,
      Lexes (sheetBody text ++ endLine) (ls ++ [.endMark]) ∧ ReadsLines ls sheet := by
  rw [parseSheet_eq_ok_iff, readStatements_ok_iff]
  constructor
  · rintro ⟨ls, lexes, kind⟩
    cases kind with
    | single notSheet => exact absurd rfl notSheet
    | sheet lines => exact ⟨_, lexes, lines⟩
  · rintro ⟨ls, lexes, lines⟩
    exact ⟨_, lexes, .sheet lines⟩

end Formulary
