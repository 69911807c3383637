import Formulary.Proofs.Expectations

/-! What can come next. A row of lexemes whose kinds are a word of a goal is read to its end, so a state
that the reader gets to takes exactly the terminals with which a word of the goal goes on. -/
namespace Formulary

open scoped Computability

variable {goal : Goal} {ls ks : List Lexeme} {s t : State} {word : List Terminal}

/-! From the words to the rules. -/

theorem map_mem_mul {L M : Language Terminal} (member : ls.map Lexeme.terminal ∈ L * M) :
    ∃ us vs, ls = us ++ vs ∧ us.map Lexeme.terminal ∈ L ∧ vs.map Lexeme.terminal ∈ M := by
  obtain ⟨a, first, b, last, split⟩ := Language.mem_mul.mp member
  obtain ⟨us, vs, rfl, rfl, rfl⟩ := List.map_eq_append_iff.mp split.symm
  exact ⟨us, vs, rfl, first, last⟩

theorem map_mem_kstar {L : Language Terminal} (member : ls.map Lexeme.terminal ∈ L∗) :
    ∃ rows : List (List Lexeme), ls = rows.flatten ∧ ∀ row ∈ rows, row.map Lexeme.terminal ∈ L := by
  obtain ⟨words, split, members⟩ := Language.mem_kstar.mp member
  induction words generalizing ls with
  | nil =>
    obtain rfl : ls = [] := by simpa using split
    exact ⟨[], rfl, nofun⟩
  | cons w words ih =>
    obtain ⟨us, vs, rfl, first, rest⟩ := List.map_eq_append_iff.mp split
    have others := fun v found => members v (.tail _ found)
    obtain ⟨rows, rfl, later⟩ := ih (rest ▸ Language.join_mem_kstar others) rest others
    exact ⟨us :: rows, rfl, List.forall_mem_cons.mpr ⟨first ▸ members w (.head _), later⟩⟩

theorem single_of_mem {l : Lexeme} (covered : ∀ k : Lexeme, k.terminal = l.terminal → k = l)
    (member : ls.map Lexeme.terminal ∈ ({[l.terminal]} : Language Terminal)) : ls = [l] := by
  obtain ⟨k, rfl, same⟩ := List.map_eq_singleton_iff.mp member
  rw [covered k same]

theorem newlines_of_mem (member : ls.map Lexeme.terminal ∈ ({[.newline]} : Language Terminal)∗) :
    ∃ n, ls = newlines n := by
  obtain ⟨rows, rfl, members⟩ := map_mem_kstar member
  have each : ∀ row ∈ rows, row = [.newline] := fun row found =>
    single_of_mem (l := .newline) (fun _ => Lexeme.covered) (members row found)
  refine ⟨rows.length, ?_⟩
  rw [List.eq_replicate_iff.mpr ⟨rfl, each⟩, newlines]
  simp

theorem exists_readsClause (declares : goal ≠ .formula)
    (member : ls.map Lexeme.terminal ∈ statementLanguage) : ∃ c, ReadsClause goal ls c := by
  rcases member with whole | declaration
  · obtain ⟨p, read⟩ := (exists_reads_iff ls).mpr whole
    exact ⟨_, .expression read⟩
  · obtain ⟨front, body, rfl, member, definition⟩ := map_mem_mul declaration
    obtain ⟨head, sign, rfl, target, equals⟩ := map_mem_mul member
    obtain rfl := single_of_mem (l := .equals) (fun _ => Lexeme.covered) equals
    obtain ⟨p, first⟩ := (exists_reads_iff head).mpr target
    obtain ⟨q, last⟩ := (exists_reads_iff body).mpr definition
    have read : ReadsClause goal _ (.declaration p.head 0 q.expr) := .declaration declares first last
    exact ⟨_, read⟩

theorem ReadsDone.behind (done : ReadsDone goal clauses ls) (n : Nat) :
    ReadsDone goal clauses (ls ++ Formulary.newlines n) := by
  induction n with
  | zero => simpa [Formulary.newlines] using done
  | succ n ih =>
    rw [Formulary.newlines, List.replicate_succ', ← List.append_assoc]
    exact ih.newline

/-- Statements with a newline or more behind each continue a sheet. -/
theorem ReadsDone.rows {rows : List (List Lexeme)} (done : ReadsDone .sheet clauses ls)
    (members : ∀ row ∈ rows,
      row.map Lexeme.terminal ∈ statementLanguage * ({[.newline]} * {[.newline]}∗)) :
    ∃ clauses', ReadsDone .sheet clauses' (ls ++ rows.flatten) := by
  induction rows generalizing clauses ls with
  | nil => exact ⟨clauses, by simpa using done⟩
  | cons row rows ih =>
    obtain ⟨first, later⟩ := List.forall_mem_cons.mp members
    obtain ⟨ks, ns, rfl, statement, ending⟩ := map_mem_mul first
    obtain ⟨n, ms, rfl, one, others⟩ := map_mem_mul ending
    obtain rfl := single_of_mem (l := .newline) (fun _ => Lexeme.covered) one
    obtain ⟨m, rfl⟩ := newlines_of_mem others
    have declares : Goal.sheet ≠ .formula := nofun
    obtain ⟨c, clause⟩ := exists_readsClause declares statement
    obtain ⟨clauses', all⟩ := ih ((ReadsDone.clause done clause).behind m) later
    exact ⟨clauses', by simpa using all⟩

/-- The rows of lexemes that the rules read as a text are those whose kinds are a word of its goal. -/
theorem Goal.mem_language_iff (goal : Goal) (ls : List Lexeme) :
    ls.map Lexeme.terminal ∈ goal.language ↔ ∃ clauses, ReadsClauses goal ls clauses := by
  refine ⟨fun member => ?_, fun ⟨_, read⟩ => read.mem_language⟩
  have single : ∀ L : Language Terminal, ls.map Lexeme.terminal ∈ {[.newline]}∗ * L * {[.newline]}∗ →
      ∃ n ks m, ls = newlines n ++ ks ++ newlines m ∧ ks.map Lexeme.terminal ∈ L := by
    intro L member
    obtain ⟨front, back, rfl, member, last⟩ := map_mem_mul member
    obtain ⟨before, ks, rfl, first, inner⟩ := map_mem_mul member
    obtain ⟨n, rfl⟩ := newlines_of_mem first
    obtain ⟨m, rfl⟩ := newlines_of_mem last
    exact ⟨n, ks, m, rfl, inner⟩
  cases goal with
  | formula =>
    obtain ⟨n, ks, m, rfl, word⟩ := single _ member
    obtain ⟨p, read⟩ := (exists_reads_iff ks).mpr word
    exact ⟨_, .single nofun (.expression read)⟩
  | line =>
    obtain ⟨n, ks, m, rfl, word⟩ := single _ member
    have declares : Goal.line ≠ .formula := nofun
    obtain ⟨c, clause⟩ := exists_readsClause declares word
    exact ⟨_, .single nofun clause⟩
  | sheet =>
    obtain ⟨lines, last, rfl, member, mark⟩ := map_mem_mul member
    obtain ⟨front, back, rfl, first, groups⟩ := map_mem_mul member
    obtain rfl := single_of_mem (l := .endMark) (fun _ => Lexeme.covered) mark
    obtain ⟨n, rfl⟩ := newlines_of_mem first
    obtain ⟨rows, rfl, members⟩ := map_mem_kstar groups
    have start : ReadsDone .sheet [] ([] ++ newlines n) := ReadsDone.start.behind n
    rw [List.nil_append] at start
    obtain ⟨clauses, done⟩ := start.rows members
    exact ⟨clauses, .sheet done⟩

/-! Every word is the kinds of a row of lexemes. -/

/-- Languages of kinds that lexemes have. -/
def Lexical (L : Language Terminal) : Prop :=
  ∀ w ∈ L, ∀ t ∈ w, t ∈ Set.range Lexeme.terminal

namespace Lexical

variable {L M : Language Terminal}

theorem single (l : Lexeme) : Lexical {[l.terminal]} := by
  rintro w rfl t member
  exact ⟨l, (List.mem_singleton.mp member).symm⟩

theorem add (left : Lexical L) (right : Lexical M) : Lexical (L + M) := by
  rintro w (member | member)
  · exact left w member
  · exact right w member

theorem mul (left : Lexical L) (right : Lexical M) : Lexical (L * M) := by
  intro w member
  obtain ⟨a, first, b, last, rfl⟩ := Language.mem_mul.mp member
  exact List.forall_mem_append.mpr ⟨left a first, right b last⟩

theorem kstar (each : Lexical L) : Lexical L∗ := by
  intro w member t found
  obtain ⟨words, rfl, members⟩ := Language.mem_kstar.mp member
  obtain ⟨a, inside, found⟩ := List.mem_flatten.mp found
  exact each a (members a inside) t found

end Lexical

theorem exists_lexeme_of_alternative : ∀ n : Category, ∀ row ∈ n.alternatives, ∀ x ∈ row, ∀ t,
    x = .terminal t → t ∈ Set.range Lexeme.terminal := by
  have sampled : ∀ n ∈ Category.all, ∀ row ∈ n.alternatives, (row.all fun
      | .terminal t => t.sample.isSome
      | .nonterminal _ => true) = true := by decide
  rintro n row rule _ member t rfl
  have some := List.all_eq_true.mp (sampled n (Category.mem_all n) row rule) _ member
  obtain ⟨l, sample⟩ := Option.isSome_iff_exists.mp some
  exact ⟨l, Terminal.terminal_of_sample sample⟩

theorem expression_lexical : Lexical expressionGrammar.language := fun _ =>
  ContextFreeGrammar.mem_of_mem_language fun _ rule =>
    exists_lexeme_of_alternative _ _ (mem_expressionGrammar.mp rule)

theorem statement_lexical : Lexical statementLanguage :=
  .add expression_lexical (.mul (.mul expression_lexical (.single .equals)) expression_lexical)

theorem Goal.lexical (goal : Goal) : Lexical goal.language := by
  have newline : Lexical {[.newline]} := .single .newline
  cases goal with
  | formula => exact .mul (.mul newline.kstar expression_lexical) newline.kstar
  | line => exact .mul (.mul newline.kstar statement_lexical) newline.kstar
  | sheet =>
    have groups : Lexical (statementLanguage * ({[.newline]} * {[.newline]}∗))∗ :=
      .kstar (.mul statement_lexical (.mul newline newline.kstar))
    exact .mul (.mul newline.kstar groups) (.single .endMark)

theorem Lexical.exists_lexemes {L : Language Terminal} (lexical : Lexical L) (member : word ∈ L) :
    ∃ ls : List Lexeme, ls.map Lexeme.terminal = word := by
  have row : word ∈ Set.range (List.map Lexeme.terminal) := by
    rw [Set.range_list_map]
    exact lexical word member
  exact row

/-! Runs. -/

namespace State

/-- The lexemes can be fed one by one, whatever their offsets, and the text can end behind them. -/
def Admits : State → List Lexeme → Prop
  | s, [] => ∃ clauses, s.finish = .ok clauses
  | s, l :: ls => ∀ offset, ∃ t, s.feed offset l = .ok t ∧ t.Admits ls

theorem Feeds.admits (feeds : s.Feeds ls t) (admits : s.Admits (ls ++ ks)) : t.Admits ks := by
  induction feeds with
  | refl => exact admits
  | cons step _ ih =>
    obtain ⟨u, fed, later⟩ := admits _
    obtain rfl := Except.ok.inj (step.symm.trans fed)
    exact ih later

theorem Reaches.admits (run : s.Reaches ls t) (admits : t.Admits ks) : s.Admits (ls ++ ks) := by
  induction run with
  | refl => exact admits
  | cons step _ ih => exact fun offset => ⟨_, step offset, ih admits⟩

end State

/-- A statement is read, and whatever is read behind it where it is complete. -/
theorem ReadsClause.admits (read : ReadsClause goal ls c) (done : List Clause) (afterNewline : Bool)
    (behind : ∀ site p ending, (site.settle p).1.frames = [] → (site.settle p).1.goal = goal →
      (State.inside site (.value p ending)).Admits ks) :
    (State.fresh goal done afterNewline).Admits (ls ++ ks) := by
  cases read with
  | expression whole =>
    obtain ⟨site, q, ending, run, settled⟩ := whole.run_fresh goal done afterNewline
    exact run.admits (behind site q ending (by rw [settled]; rfl) (by rw [settled]; rfl))
  | @declaration _ p us body _ declares target definition =>
    obtain ⟨site, q, ending, run, settled⟩ := target.run_fresh goal done afterNewline
    rw [List.append_assoc, List.append_assoc]
    refine run.admits fun offset => ?_
    let root : Site := { Site.atStart goal done with root := .body p.head offset }
    obtain ⟨site', q', ending', run', settled'⟩ := definition.run root rfl
    have rest := behind site' q' ending' (by rw [settled']; rfl) (by rw [settled']; rfl)
    exact ⟨_, feed_equals declares settled ending offset, run'.admits rest⟩

theorem fresh_admits (goal : Goal) (done : List Clause) (n : Nat) (afterNewline : Bool)
    (behind : ∀ b, (State.fresh goal done b).Admits ks) :
    (State.fresh goal done afterNewline).Admits (newlines n ++ ks) := by
  induction n generalizing afterNewline with
  | zero => exact behind afterNewline
  | succ n ih => exact fun _ => ⟨_, rfl, ih true⟩

theorem ended_admits (c : Clause) (n : Nat) : (State.ended c).Admits (newlines n) := by
  induction n with
  | zero => exact ⟨[c], rfl⟩
  | succ n ih => exact fun _ => ⟨_, rfl, ih⟩

theorem ReadsDone.admits (read : ReadsDone .sheet clauses ls)
    (behind : ∀ done b, (State.fresh .sheet done b).Admits ks) :
    (State.start .sheet).Admits (ls ++ ks) := by
  generalize sheet : Goal.sheet = goal at read
  induction read generalizing ks with
  | start =>
    cases sheet
    exact behind [] false
  | newline _ ih =>
    rw [List.append_assoc]
    exact ih (fun done _ _ => ⟨_, rfl, behind done true⟩) sheet
  | clause _ clause ih =>
    rw [List.append_assoc, List.append_assoc]
    refine ih (fun done b => clause.admits done b fun site p ending outermost sheet offset => ?_) rfl
    exact ⟨_, feed_newline_fresh outermost sheet ending offset, behind _ true⟩

theorem ReadsClauses.admits (read : ReadsClauses goal ls clauses) : (State.start goal).Admits ls := by
  cases read with
  | @single _ us c n m single clause =>
    rw [List.append_assoc]
    refine fresh_admits goal [] n false fun b => ?_
    refine clause.admits [] b fun site p ending outermost goal_eq => ?_
    cases m with
    | zero =>
      refine ⟨[(site.settle p).1.clause (site.settle p).2], ?_⟩
      simp [State.finish, outermost, goal_eq, single]
    | succ m =>
      intro offset
      exact ⟨_, feed_newline_ended outermost (goal_eq ▸ single) ending offset, ended_admits _ m⟩
  | sheet done => exact done.admits fun done b _ => ⟨.sealed done, rfl, done, rfl⟩

/-! What a state takes. -/

theorem exists_sample (l : Lexeme) : ∃ k, l.terminal.sample = some k := by
  cases l with
  | symbol s => cases s <;> exact ⟨_, rfl⟩
  | _ => exact ⟨_, rfl⟩

/-- What goes on to a word of the goal is taken. -/
theorem State.Feeds.takes (feeds : (State.start goal).Feeds ls s) {t : Terminal} {rest : List Terminal}
    (member : ls.map Lexeme.terminal ++ t :: rest ∈ goal.language) :
    ∃ l, t.sample = some l ∧ (s.feed 0 l).isOk = true := by
  obtain ⟨all, same⟩ := goal.lexical.exists_lexemes member
  obtain ⟨us, vs, -, -, others⟩ := List.map_eq_append_iff.mp same
  obtain ⟨k, ks, rfl, rfl, rfl⟩ := List.map_eq_cons_iff.mp others
  obtain ⟨l, sample⟩ := exists_sample k
  have kind := Terminal.terminal_of_sample sample
  have read : (ls ++ l :: ks).map Lexeme.terminal ∈ goal.language := by
    rw [List.map_append, List.map_cons, kind]
    exact member
  obtain ⟨clauses, reads⟩ := (Goal.mem_language_iff goal _).mp read
  obtain ⟨t, fed, -⟩ := feeds.admits reads.admits 0
  exact ⟨l, sample, by rw [fed]; rfl⟩

/-- A state takes exactly the terminals with which the lexemes before it go on to a word of the goal. -/
theorem State.Feeds.accepts_iff (feeds : (State.start goal).Feeds ls s) (t : Terminal) :
    s.accepts t = true ↔ goal.Allows (ls.map Lexeme.terminal) t := by
  refine ⟨(Awaits.held feeds.reads_start).allows, fun allows => ?_⟩
  have go : ∀ rest, ls.map Lexeme.terminal ++ t :: rest ∈ goal.language →
      ∃ l, t.sample = some l ∧ (s.feed 0 l).isOk = true := fun _ => feeds.takes
  cases t with
  | endOfText =>
    obtain ⟨clauses, reads⟩ := (Goal.mem_language_iff goal ls).mp allows
    have whole : (State.start goal).Admits (ls ++ []) := (List.append_nil ls).symm ▸ reads.admits
    obtain ⟨clauses, finished⟩ := feeds.admits whole
    rw [State.accepts, finished]
    rfl
  | endMark =>
    obtain ⟨l, ⟨⟩, fed⟩ := go [] allows
    exact fed
  | control | other =>
    obtain ⟨rest, member⟩ := allows
    obtain ⟨l, sample, -⟩ := go rest member
    cases sample
  | _ =>
    obtain ⟨rest, member⟩ := allows
    obtain ⟨l, ⟨⟩, fed⟩ := go rest member
    exact fed

end Formulary
