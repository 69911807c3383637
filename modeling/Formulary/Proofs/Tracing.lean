import Formulary.Proofs.Reading

/-! What the state of the reader tells about the lexemes behind it: every open construct, chain and
statement was written by the rules. The invariant holds at the start, and every lexeme that is taken
keeps it. -/
namespace Formulary

/-- The open constructs, outermost first, with the chains that they interrupt and the chain since. -/
inductive Stacks : List (Frame × Chain) → Chain → List Lexeme → Prop where
  | base : Reads cs (.chain c) → Stacks [] c cs
  | frame : Stacks frames outer ls → Reads ks (.opening f) → Reads cs (.chain c) →
      Stacks ((f, outer) :: frames) c (ls ++ ks ++ cs)

inductive ReadsClause (goal : Goal) : List Lexeme → Clause → Prop where
  | expression : Reads ls (.whole p) → ReadsClause goal ls (.expression p.expr)
  | declaration : goal ≠ .formula → Reads ls (.whole p) → Reads ks (.whole q) →
      ReadsClause goal (ls ++ [.equals] ++ ks) (.declaration p.head equals q.expr)

/-- The lexemes before the expression that is being read. -/
inductive ReadsRoot (goal : Goal) : List Lexeme → Root → Prop where
  | first : ReadsRoot goal [] .first
  | body : goal ≠ .formula → Reads ls (.whole p) →
      ReadsRoot goal (ls ++ [.equals]) (.body p.head equals)

/-- The statements read before, the latest first, with the newlines around them. -/
inductive ReadsDone : Goal → List Clause → List Lexeme → Prop where
  | start : ReadsDone goal [] []
  | newline : ReadsDone goal done ls → ReadsDone goal done (ls ++ [.newline])
  | clause : ReadsDone .sheet done ls → ReadsClause .sheet ks clause →
      ReadsDone .sheet (clause :: done) (ls ++ ks ++ [.newline])

/-- What leads from the place of an operand to what is due. -/
def Leads (ls : List Lexeme) : Focus → Prop
  | .operand => ls = []
  | .value p ending => Reads ls (.operand p ending)
  | .whole _ => False
  | .callParen f => ls = [.callee f]
  | .vecBrace .variable => ls = [.symbol .vec]
  | .vecName .variable => ls = [.symbol .vec, .leftBrace]
  | .vecClose .variable c => ls = [.symbol .vec, .leftBrace, .scalar c]
  | .vecBrace .bound => ls = [.symbol .sum, .leftBrace, .symbol .vec]
  | .vecName .bound => ls = [.symbol .sum, .leftBrace, .symbol .vec, .leftBrace]
  | .vecClose .bound c => ls = [.symbol .sum, .leftBrace, .symbol .vec, .leftBrace, .scalar c]
  | .operandBrace a _ => Reads (ls ++ [.leftBrace]) (.opening (.operand a))
  | .sumBrace => ls = [.symbol .sum]
  | .sumName => ls = [.symbol .sum, .leftBrace]
  | .sumEquals i => ls = .symbol .sum :: .leftBrace :: i.lexemes
  | .sumCaret i a => Reads (ls ++ [.sign .power, .leftBrace]) (.opening (.bound i a))
  | .sumBound i a => Reads (ls ++ [.leftBrace]) (.opening (.bound i a))

def SiteReads (goal : Goal) (site : Site) (ws : List Lexeme) : Prop :=
  site.goal = goal ∧ ∃ ls rs ks, ws = ls ++ rs ++ ks ∧ ReadsDone goal site.done ls ∧
    ReadsRoot goal rs site.root ∧ Stacks site.frames site.chain ks

/-- The lexemes that lead from the start of a text to a state. -/
inductive StateReads (goal : Goal) : List Lexeme → State → Prop where
  | fresh : ReadsDone goal done ls → StateReads goal ls (.fresh goal done afterNewline)
  | inside : SiteReads goal site ws → Leads fs focus → StateReads goal (ws ++ fs) (.inside site focus)
  | ended : goal ≠ .sheet → ReadsDone goal [] ls → ReadsClause goal ks clause →
      StateReads goal (ls ++ ks ++ List.replicate (n + 1) .newline) (.ended clause)
  | sealed : goal = .sheet → ReadsDone goal done ls →
      StateReads goal (ls ++ [.endMark]) (.sealed done)

theorem stateReads_start (goal : Goal) : StateReads goal [] (.start goal) :=
  .fresh .start

/-! Sites. -/

theorem chain_nil (read : Reads cs (.chain [])) : cs = [] := by
  cases read
  rfl

theorem Stacks.sign (stack : Stacks frames c ls) (read : Reads ks (.operand p ending)) :
    Stacks frames ((p.expr, s) :: c) (ls ++ ks ++ [.sign s]) := by
  cases stack with
  | base chain => exact .base (.chainSign chain read)
  | frame outer opening chain =>
    simpa using Stacks.frame outer opening (Reads.chainSign (s := s) chain read)

theorem Stacks.enter (stack : Stacks frames c ls) (read : Reads ks (.opening f)) :
    Stacks ((f, c) :: frames) [] (ls ++ ks) := by
  simpa using Stacks.frame stack read .chainNil

/-- What settles is a whole expression directly inside the construct that stays open. -/
theorem Stacks.settle (stack : Stacks frames c ls)
    (completes : ∀ cs, Reads cs (.chain c) → Reads (cs ++ ks) (.whole (c.join p))) :
    ∃ us vs, ls ++ ks = us ++ vs ∧ Stacks (Site.settleFrames frames c p).1 [] us ∧
      Reads vs (.whole (Site.settleFrames frames c p).2) := by
  induction stack generalizing ks p with
  | base chain => exact ⟨[], _, rfl, .base .chainNil, completes _ chain⟩
  | @frame frames outer ls opened f cs c stack opening chain ih =>
    cases f with
    | summand i a b =>
      have sum : ∀ ds, Reads ds (.chain outer) → Reads (ds ++ (opened ++ (cs ++ ks)))
          (.whole (outer.join (.plain (.sum i a b (c.join p).expr)))) := by
        intro ds before
        simpa using Reads.lastSum before opening (completes cs chain)
      obtain ⟨us, vs, same, settled, whole⟩ := ih sum
      exact ⟨us, vs, by simpa using same, settled, whole⟩
    | _ =>
      exact ⟨ls ++ opened, cs ++ ks, by simp, stack.enter opening, completes cs chain⟩

namespace SiteReads

variable {goal : Goal} {site : Site} {ws ks : List Lexeme}

theorem enter (held : SiteReads goal site ws) (read : Reads ks (.opening f)) :
    SiteReads goal (site.enter f) (ws ++ ks) := by
  obtain ⟨same, ls, rs, us, rfl, done, root, stack⟩ := held
  exact ⟨same, ls, rs, us ++ ks, by simp, done, root, stack.enter read⟩

theorem sign (held : SiteReads goal site ws) (read : Reads ks (.operand p ending)) :
    SiteReads goal { site with chain := (p.expr, s) :: site.chain } (ws ++ ks ++ [.sign s]) := by
  obtain ⟨same, ls, rs, us, rfl, done, root, stack⟩ := held
  exact ⟨same, ls, rs, us ++ ks ++ [.sign s], by simp, done, root, stack.sign read⟩

theorem settle (held : SiteReads goal site ws) (read : Reads ks (.operand p ending)) :
    ∃ us vs, ws ++ ks = us ++ vs ∧ SiteReads goal (site.settle p).1 us ∧
      Reads vs (.whole (site.settle p).2) := by
  obtain ⟨same, ls, rs, us, rfl, done, root, stack⟩ := held
  obtain ⟨vs, ws, split, settled, whole⟩ := stack.settle fun cs chain => .last chain read
  exact ⟨ls ++ rs ++ vs, ws, by simp [split], ⟨same, ls, rs, vs, rfl, done, root, settled⟩, whole⟩

/-- Around the innermost construct, with the chain inside it. -/
theorem interrupt (held : SiteReads goal site ws) (inner : site.frames = (f, outer) :: frames) :
    ∃ us os cs, ws = us ++ os ++ cs ∧ SiteReads goal (site.leave frames outer) us ∧
      Reads os (.opening f) ∧ Reads cs (.chain site.chain) := by
  obtain ⟨same, ls, rs, us, rfl, done, root, stack⟩ := held
  rw [inner] at stack
  cases stack with
  | @frame _ _ before opened _ cs _ stack opening chain =>
    exact ⟨ls ++ rs ++ before, opened, cs, by simp,
      ⟨same, ls, rs, before, rfl, done, root, stack⟩, opening, chain⟩

theorem leave (held : SiteReads goal site ws) (inner : site.frames = (f, outer) :: frames)
    (fresh : site.chain = []) : ∃ us os, ws = us ++ os ∧
      SiteReads goal (site.leave frames outer) us ∧ Reads os (.opening f) := by
  obtain ⟨us, os, cs, rfl, around, opening, chain⟩ := held.interrupt inner
  rw [fresh] at chain
  obtain rfl := chain_nil chain
  exact ⟨us, os, by simp, around, opening⟩

/-- Outside every construct a whole expression ends the statement. -/
theorem clause (held : SiteReads goal site ws) (outermost : site.frames = [])
    (fresh : site.chain = []) (read : Reads ks (.whole p)) : ∃ us vs, ws ++ ks = us ++ vs ∧
      ReadsDone goal site.done us ∧ ReadsClause goal vs (site.clause p) := by
  obtain ⟨_, _, root, _, _⟩ := site
  obtain ⟨same, ls, rs, us, rfl, done, root, stack⟩ := held
  cases outermost
  cases fresh
  cases stack with
  | base chain =>
    obtain rfl := chain_nil chain
    refine ⟨ls, rs ++ ks, by simp, done, ?_⟩
    cases root with
    | first => exact .expression read
    | body declares head => exact .declaration declares head read

end SiteReads

/-! Lexemes that are taken. -/

theorem StateReads.place (held : SiteReads goal site ws) :
    StateReads goal ws (.inside site .operand) := by
  have leads : Leads [] .operand := rfl
  simpa using StateReads.inside held leads

theorem StateReads.operand (held : SiteReads goal site ws) (read : Reads ks (.operand p ending)) :
    StateReads goal (ws ++ ks) (.inside site (.value p ending)) :=
  .inside held (show Leads ks (.value p ending) from read)

theorem StateReads.due (held : SiteReads goal site ws) (leads : Leads (fs ++ [l]) focus) :
    StateReads goal (ws ++ fs ++ [l]) (.inside site focus) := by
  rw [List.append_assoc]
  exact .inside held leads

theorem StateReads.opened (held : SiteReads goal site ws) (read : Reads (fs ++ [l]) (.opening f)) :
    StateReads goal (ws ++ fs ++ [l]) (.inside (site.enter f) .operand) := by
  rw [List.append_assoc]
  exact .place (held.enter read)

theorem StateReads.braceDue (held : SiteReads goal site ws)
    (read : Reads (ks ++ [.leftBrace]) (.opening (.operand a))) (first : Bool) :
    StateReads goal (ws ++ ks) (.inside site (.operandBrace a first)) :=
  .inside held (show Leads ks (.operandBrace a first) from read)

theorem StateReads.caretDue (held : SiteReads goal site ws)
    (read : Reads (ks ++ [.sign .power, .leftBrace]) (.opening (.bound i a))) :
    StateReads goal (ws ++ ks) (.inside site (.sumCaret i a)) :=
  .inside held (show Leads ks (.sumCaret i a) from read)

theorem feedOperand_reads (held : SiteReads goal site ws)
    (taken : feedOperand site l = some t) : StateReads goal (ws ++ [l]) t := by
  cases l with
  | number whole fraction =>
    cases taken
    exact .operand held .number
  | scalar c =>
    cases taken
    exact .operand held (Reads.identifier (i := .scalar c))
  | callee f =>
    cases taken
    exact .inside held rfl
  | symbol s =>
    cases s with
    | vec | sum =>
      cases taken
      exact .inside held rfl
    | unary s =>
      cases taken
      exact .braceDue held .unary true
    | binary s =>
      cases taken
      exact .braceDue held .binary true
    | ternary s =>
      cases taken
      exact .braceDue held .ternary true
  | leftParen =>
    cases taken
    exact .place (held.enter .group)
  | _ => cases taken

theorem ReadsDone.empty (done : ReadsDone goal clauses ls) (single : goal ≠ .sheet) :
    clauses = [] := by
  induction done with
  | start => rfl
  | newline _ ih => exact ih single
  | clause => exact absurd rfl single

theorem SiteReads.declare (held : SiteReads goal site ws) (declares : goal ≠ .formula)
    (first : site.root = .first) (outermost : site.frames = []) (fresh : site.chain = [])
    (read : Reads ks (.whole p)) (offset : Nat) :
    SiteReads goal { site with root := .body p.head offset, chain := [] } (ws ++ ks ++ [.equals]) := by
  obtain ⟨_, _, _, _, _⟩ := site
  obtain ⟨same, ls, rs, us, rfl, done, root, stack⟩ := held
  cases first
  cases outermost
  cases fresh
  cases root
  cases stack with
  | base chain =>
    obtain rfl := chain_nil chain
    exact ⟨same, ls, ks ++ [.equals], [], by simp, done, .body declares read, .base .chainNil⟩

theorem feedRoot_reads (held : SiteReads goal site ws) (outermost : site.frames = [])
    (fresh : site.chain = []) (read : Reads ks (.whole p))
    (taken : feedRoot site p offset l = some t) : StateReads goal (ws ++ ks ++ [l]) t := by
  obtain ⟨us, vs, split, done, clause⟩ := held.clause outermost fresh read
  have same : site.goal = goal := held.1
  unfold feedRoot at taken
  split at taken
  · next sheet =>
    cases taken
    obtain rfl := same.symm.trans sheet
    rw [split]
    exact .fresh (.clause done clause)
  · next other =>
    cases taken
    have single : goal ≠ .sheet := fun sheet => other (same.trans sheet)
    rw [done.empty single] at done
    rw [split]
    exact .ended (n := 0) single done clause
  · cases taken
  · next first notFormula =>
    cases taken
    have declares : goal ≠ .formula := fun formula => notFormula (same.trans formula)
    exact .place (held.declare declares first outermost fresh read offset)
  · cases taken

theorem feedWhole_reads (held : SiteReads goal site ws) (fresh : site.chain = [])
    (read : Reads ks (.whole p)) (taken : feedWhole site p offset l = some t) :
    StateReads goal (ws ++ ks ++ [l]) t := by
  unfold feedWhole at taken
  split at taken
  · next outermost => exact feedRoot_reads held outermost fresh read taken
  · next f outer frames inner =>
    obtain ⟨us, os, rfl, around, opening⟩ := held.leave inner fresh
    rw [List.append_assoc us]
    split at taken
    · cases taken
      simpa using StateReads.operand around (.parenthesised opening read)
    · cases taken
      simpa using StateReads.place (around.enter (.second opening read))
    · cases taken
      simpa using StateReads.operand around (.pair opening read)
    · cases taken
      simpa using StateReads.place (around.enter (.third opening read))
    · cases taken
      simpa using StateReads.operand around (.vector opening read)
    · cases taken
      simpa using StateReads.place (around.enter (.later opening read))
    · cases taken
      simpa using StateReads.operand around (.call opening read)
    · cases taken
      simpa using StateReads.operand around (.indexed opening read)
    · split at taken
      · next supplied =>
        cases taken
        have next := Reads.supply opening read supplied
        rw [List.append_cons] at next
        have step := StateReads.braceDue around next false
        simpa using step
      · next supplied =>
        cases taken
        simpa using StateReads.operand around (.applied opening read supplied)
    · cases taken
      have next := Reads.bound opening read
      rw [List.append_cons] at next
      have step := StateReads.caretDue around next
      simpa using step
    · cases taken
      simpa using StateReads.place (around.enter (.summand opening read))
    · cases taken

theorem feedSettled_reads (held : SiteReads goal site ws) (read : Reads ks (.operand p ending))
    (taken : feedSettled site p offset l = .ok t) : StateReads goal (ws ++ ks ++ [l]) t := by
  obtain ⟨us, vs, split, settled, whole⟩ := held.settle read
  unfold feedSettled at taken
  dsimp only at taken
  split at taken
  · next state fed =>
    cases taken
    rw [split]
    exact feedWhole_reads settled rfl whole fed
  · cases taken

theorem feedIndex_reads (held : SiteReads goal site ws) (read : Reads ks (.operand p ending))
    (taken : feedIndex site p ending = .ok t) : StateReads goal (ws ++ ks ++ [.index]) t := by
  cases ending with
  | plain | braced =>
    cases taken
    simpa using StateReads.place (held.enter (.subscript read nofun))
  | indexed =>
    unfold feedIndex at taken
    split at taken
    · next inner =>
      cases taken
      obtain ⟨us, os, cs, rfl, around, opening, chain⟩ := held.interrupt inner
      simpa using StateReads.place (around.enter (.sumSubscript opening chain read))
    · cases taken
    · next notIndexed _ => exact absurd rfl notIndexed

theorem elim_ok {fed : Option State} {refused t : State}
    (taken : fed.elim (.error refused) .ok = Except.ok t) : fed = some t := by
  cases fed with
  | none => cases taken
  | some _ =>
    cases taken
    rfl

theorem feedInside_reads (held : SiteReads goal site ws) (leads : Leads fs focus)
    (taken : feedInside site focus offset l = .ok t) : StateReads goal (ws ++ fs ++ [l]) t := by
  unfold feedInside at taken
  split at taken
  · cases leads
    simpa using feedOperand_reads held (elim_ok taken)
  · cases taken
    exact .place (held.sign leads)
  · exact feedIndex_reads held leads taken
  · split at taken
    · exact feedSettled_reads held leads taken
    · cases taken
  · exact leads.elim
  · cases taken
    cases leads
    exact .opened held .argument
  · next use =>
    cases taken
    cases use <;> cases leads <;> exact .due held rfl
  · next use _ =>
    cases taken
    cases use <;> cases leads <;> exact .due held rfl
  · next c =>
    cases taken
    cases leads
    exact .due held (Reads.identifier (i := .vector c))
  · cases taken
    cases leads
    exact .due held rfl
  · cases taken
    exact .opened held leads
  · cases taken
    cases leads
    exact .due held rfl
  · cases taken
    cases leads
    exact .due held rfl
  · cases taken
    cases leads
    exact .due held rfl
  · cases taken
    cases leads
    exact .opened held .start
  · next i a =>
    cases taken
    exact .due held (by simpa [Leads] using leads)
  · cases taken
    exact .opened held leads
  · cases taken

/-- A lexeme that is taken continues what was read by the rules. -/
theorem feed_reads (held : StateReads goal ls s) (taken : s.feed offset l = .ok t) :
    StateReads goal (ls ++ [l]) t := by
  cases held with
  | @fresh done _ _ before =>
    unfold State.feed at taken
    split at taken
    · next fresh =>
      cases fresh
      cases taken
      exact .fresh before.newline
    · next fresh =>
      cases fresh
      cases taken
      exact .sealed rfl before
    · next fresh _ _ =>
      cases fresh
      have start : SiteReads goal (.atStart goal done) ls :=
        ⟨rfl, ls, [], [], by simp, before, .first, .base .chainNil⟩
      exact feedOperand_reads start (elim_ok taken)
    all_goals contradiction
  | inside site leads => exact feedInside_reads site leads taken
  | @ended _ _ _ n single before clause =>
    cases l with
    | newline =>
      cases taken
      have := StateReads.ended (n := n + 1) single before clause
      simpa [List.replicate_succ'] using this
    | _ => cases taken
  | sealed sheet before => cases taken

theorem State.Reaches.reads {s t : State} (run : s.Reaches ls t) (held : StateReads goal ks s) :
    StateReads goal (ks ++ ls) t := by
  induction run generalizing ks with
  | refl => simpa using held
  | cons step _ ih => simpa using ih (feed_reads held (step 0))

end Formulary
