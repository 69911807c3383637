import Formulary.Session
import Formulary.Proofs.Answers
import Mathlib.Tactic.IntervalCases

/-! What is shown of statements and of faults. A statement on one line is on one line indeed, since all
that could break it is escaped; every statement has an outline; and every fault is shown over a line of
the text. -/
namespace Formulary

/-! Texts on one line. -/

def OneLine (s : String) : Prop := '\n' ∉ s.toList

instance : DecidablePred OneLine := fun s => inferInstanceAs (Decidable ('\n' ∉ s.toList))

theorem oneLine_append_iff {s t : String} : OneLine (s ++ t) ↔ OneLine s ∧ OneLine t := by
  rw [OneLine, String.toList_append, List.mem_append, not_or]
  exact Iff.rfl

theorem OneLine.append (first : OneLine s) (last : OneLine t) : OneLine (s ++ t) :=
  oneLine_append_iff.mpr ⟨first, last⟩

theorem oneLine_ofList {cs : List Char} : OneLine (String.ofList cs) ↔ '\n' ∉ cs := by
  rw [OneLine, String.toList_ofList]

theorem digitChar_ne_newline (n : Nat) : Nat.digitChar n ≠ '\n' := by
  by_cases large : 16 ≤ n
  · rw [Nat.digitChar_eq_star.mpr large]
    decide
  · interval_cases n <;> decide

theorem newline_notMem_toDigits (base n : Nat) : '\n' ∉ Nat.toDigits base n := by
  have core : ∀ fuel n digits, '\n' ∉ digits → '\n' ∉ Nat.toDigitsCore base fuel n digits := by
    intro fuel
    induction fuel with
    | zero => exact fun _ _ plain => plain
    | succ fuel ih =>
      intro n digits plain
      have more : '\n' ∉ Nat.digitChar (n % base) :: digits := by
        rw [List.mem_cons, not_or]
        exact ⟨(digitChar_ne_newline _).symm, plain⟩
      rw [Nat.toDigitsCore]
      split
      · exact more
      · exact ih _ _ more
  exact core _ _ _ List.not_mem_nil

/-- A newline is escaped, and no escape brings in another. -/
theorem newline_notMem_escapeChar {quote : Char} (notNewline : quote ≠ '\n') (c : Char) :
    '\n' ∉ escapeChar quote c := by
  have digits : ∀ width n, '\n' ∉ hexDigits width n := by
    intro width n member
    rcases List.mem_append.mp member with zero | digit
    · cases List.eq_of_mem_replicate zero
    · exact newline_notMem_toDigits 16 n digit
  unfold escapeChar numberedEscape
  split_ifs with special newline
  · have different : c ≠ '\n' := by
      rintro rfl
      simp [notNewline.symm] at special
    simpa using different.symm
  all_goals simp [digits, eq_comm, newline]

theorem oneLine_quoted (s : String) : OneLine (quoted s) := by
  have quote : quoteFor s.toList ≠ '\n' := by
    unfold quoteFor
    split_ifs <;> decide
  rw [quoted, oneLine_ofList, quoteChars]
  simp [newline_notMem_escapeChar quote, quote.symm]

theorem oneLine_toString (n : Nat) : OneLine (toString n) :=
  oneLine_ofList.mpr (newline_notMem_toDigits 10 n)

theorem oneLine_toString_int (n : Int) : OneLine (toString n) := by
  cases n with
  | ofNat n => exact oneLine_toString n
  | negSucc n => exact OneLine.append (s := "-") (by decide) (oneLine_toString (n + 1))

theorem oneLine_zeros (n : Nat) : OneLine (zeros n) := by
  rw [zeros, oneLine_ofList]
  intro member
  cases List.eq_of_mem_replicate member

/-- Cut and filled up, digits stay on their line. -/
theorem oneLine_positionalText {digits : List Char} (plain : '\n' ∉ digits) (exponent : Int) :
    OneLine (positionalText digits exponent) := by
  have front (n : Nat) : OneLine (String.ofList (digits.take n)) :=
    oneLine_ofList.mpr (mt List.mem_of_mem_take plain)
  have back (n : Nat) : OneLine (String.ofList (digits.drop n)) :=
    oneLine_ofList.mpr (mt List.mem_of_mem_drop plain)
  unfold positionalText
  dsimp only
  split_ifs
  · exact ((oneLine_ofList.mpr plain).append (oneLine_zeros _)).append (by decide)
  · exact ((front _).append (by decide)).append (back _)
  · exact (OneLine.append (by decide) (oneLine_zeros _)).append (oneLine_ofList.mpr plain)

theorem oneLine_scientificText (l : NumberLayout) {digits : List Char} (plain : '\n' ∉ digits)
    (first : Int) : OneLine (scientificText l digits first) := by
  have front : OneLine (String.ofList (digits.take 1)) :=
    oneLine_ofList.mpr (mt List.mem_of_mem_take plain)
  have fraction : OneLine (if (digits.drop 1).isEmpty then "" else "." ++ String.ofList (digits.drop 1)) := by
    split_ifs
    · decide
    · exact OneLine.append (by decide) (oneLine_ofList.mpr (mt List.mem_of_mem_drop plain))
  have sign : OneLine (if first < 0 then "e-" else "e+") := by
    split_ifs <;> decide
  exact (((front.append fraction).append sign).append (oneLine_zeros _)).append (oneLine_toString _)

theorem oneLine_number (x : Binary64) : OneLine x.text := by
  have sign (negative : Bool) : OneLine (Binary64.signText negative) := by
    cases negative <;> decide
  cases x with
  | finite negative units =>
    refine (sign negative).append ?_
    split_ifs
    · decide
    · unfold Decimal.text
      dsimp only
      split_ifs
      · exact oneLine_positionalText (oneLine_toString _) _
      · exact oneLine_scientificText _ (oneLine_toString _) _
  | infinite negative => exact (sign negative).append (by decide)
  | nan => decide

/-! Trees on one line. -/

theorem Atom.oneLine_inline (a : Atom) : OneLine a.inline := by
  cases a with
  | null | emptyList => decide
  | bool b => cases b <;> decide
  | int n => exact oneLine_toString_int n
  | real x => exact oneLine_number x
  | text s => exact oneLine_quoted s

theorem Operator.oneLine_name (o : Operator) : OneLine o.name := by
  rcases o with _ | _ | s | _ | s | s | s <;> try cases s
  all_goals decide

theorem Operator.oneLine_inline (o : Operator) : OneLine o.inline :=
  (((OneLine.append (by decide) o.oneLine_name).append (by decide)).append (oneLine_quoted _)).append
    (by decide)

def OneLines (pieces : List String) : Prop := ∀ s ∈ pieces, OneLine s

theorem OneLines.cons (first : OneLine s) (later : OneLines pieces) : OneLines (s :: pieces) :=
  List.forall_mem_cons.mpr ⟨first, later⟩

/-- A piece of the notation itself. -/
theorem OneLines.put (s : String) (later : OneLines pieces) (plain : OneLine s := by decide) :
    OneLines (s :: pieces) :=
  later.cons plain

/-- Lines put together are cut into the same lines. -/
theorem OneLines.cut (held : OneLines pieces) (filled : pieces ≠ []) :
    ("\n".intercalate pieces).toList.splitOn '\n' = pieces.map String.toList := by
  rw [String.toList_intercalate]
  refine List.splitOn_intercalate '\n' ?_ (by simpa using filled)
  intro l member
  obtain ⟨s, found, rfl⟩ := List.mem_map.mp member
  exact held s found

theorem OneLines.join (held : OneLines pieces) : OneLine (String.join pieces) := by
  induction pieces with
  | nil => decide
  | cons s pieces ih =>
    obtain ⟨first, later⟩ := List.forall_mem_cons.mp held
    rw [String.join_cons]
    exact first.append (ih later)

mutual

theorem Node.oneLines_inlineOnto : ∀ (n : Node) {rest : List String}, OneLines rest →
    OneLines (n.inlineOnto rest)
  | .atom a, _, later => .cons a.oneLine_inline later
  | .scalarId _, _, later | .vectorId _, _, later =>
    .put _ (.cons (oneLine_quoted _) (.put _ later))
  | .number value, _, later => .put _ (.cons value.oneLine_inline (.put _ later))
  | .variable id, _, later => .put _ (id.oneLines_inlineOnto (.put _ later))
  | .application f x, _, later =>
    .put _ (f.oneLines_inlineOnto (.put _ (x.oneLines_inlineOnto (.put _ later))))
  | .vector items, _, later => .put _ (oneLines_tupleOnto items (.put _ later))
  | .singleArity o x, _, later =>
    .put _ (.cons o.oneLine_inline (.put _ (x.oneLines_inlineOnto (.put _ later))))
  | .doubleArity o x y, _, later =>
    .put _ (.cons o.oneLine_inline (.put _ (x.oneLines_inlineOnto (.put _
      (y.oneLines_inlineOnto (.put _ later))))))
  | .tripleArity o x y z, _, later =>
    .put _ (.cons o.oneLine_inline (.put _ (x.oneLines_inlineOnto (.put _
      (y.oneLines_inlineOnto (.put _ (z.oneLines_inlineOnto (.put _ later))))))))
  | .abstraction p b, _, later | .binding p b, _, later =>
    .put _ (p.oneLines_inlineOnto (.put _ (b.oneLines_inlineOnto (.put _ later))))
  | .mapAbstraction p i b, _, later =>
    .put _ (p.oneLines_inlineOnto (.put _ (.cons i.oneLine_inline (.put _
      (b.oneLines_inlineOnto (.put _ later))))))
  | .program ss, _, later => .put _ (oneLines_tupleOnto ss (.put _ later))

theorem Node.oneLines_tupleOnto : ∀ (ns : List Node) {rest : List String}, OneLines rest →
    OneLines (tupleOnto ns rest)
  | [], _, later => .put _ later
  | [n], _, later => .put _ (n.oneLines_inlineOnto (.put _ later))
  | n :: m :: ns, _, later =>
    .put _ (n.oneLines_inlineOnto (.put _ (m.oneLines_inlineOnto (oneLines_itemsOnto ns (.put _ later)))))

theorem Node.oneLines_itemsOnto : ∀ (ns : List Node) {rest : List String}, OneLines rest →
    OneLines (itemsOnto ns rest)
  | [], _, later => later
  | n :: ns, _, later => .put _ (n.oneLines_inlineOnto (oneLines_itemsOnto ns later))

end

theorem Node.oneLine_inline (n : Node) : OneLine n.inline := by
  have none : OneLines [] := nofun
  exact (n.oneLines_inlineOnto none).join

/-! Outlines. -/

def Node.Labelled (n : Node) : Prop := ∃ label, n.label = .ok label

def Labelled (entries : List (Nat × Node)) : Prop := ∀ entry ∈ entries, entry.2.Labelled

theorem Labelled.cons (first : n.Labelled) (later : Labelled entries) :
    Labelled ((depth, n) :: entries) :=
  List.forall_mem_cons.mpr ⟨first, later⟩

theorem Identifier.labelled (id : Identifier) : (Node.variable id.toNode).Labelled := by
  cases id <;> exact ⟨_, rfl⟩

mutual

theorem Expression.labelled : ∀ (e : Expression) {depth : Nat} {rest : List (Nat × Node)},
    Labelled rest → Labelled (e.toNode.preorderOnto depth rest)
  | .number _, _, _, later => .cons ⟨_, rfl⟩ later
  | .variable id, _, _, later => .cons id.labelled later
  | .call _ e, _, _, later => .cons ⟨_, rfl⟩ (.cons ⟨_, rfl⟩ (e.labelled later))
  | .vector a b es, _, _, later =>
    .cons ⟨_, rfl⟩ (a.labelled (b.labelled (Expression.allLabelled es later)))
  | .sign _ a b, _, _, later | .index a b, _, _, later | .binary _ a b, _, _, later =>
    .cons ⟨_, rfl⟩ (a.labelled (b.labelled later))
  | .unary _ a, _, _, later => .cons ⟨_, rfl⟩ (a.labelled later)
  | .ternary _ a b c, _, _, later => .cons ⟨_, rfl⟩ (a.labelled (b.labelled (c.labelled later)))
  | .sum (.scalar _) a b c, _, _, later | .sum (.vector _) a b c, _, _, later =>
    .cons ⟨_, rfl⟩ (.cons ⟨_, rfl⟩ (a.labelled (b.labelled (c.labelled later))))

theorem Expression.allLabelled : ∀ (es : List Expression) {depth : Nat} {rest : List (Nat × Node)},
    Labelled rest → Labelled (Node.preorderAllOnto depth (Expression.toNodes es) rest)
  | [], _, _, later => later
  | e :: es, _, _, later => e.labelled (Expression.allLabelled es later)

end

theorem Statement.labelled (s : Statement) : Labelled s.toNode.preorder := by
  cases s with
  | expression e => exact e.labelled nofun
  | declaration head e =>
    cases head with
    | name id => exact .cons ⟨_, rfl⟩ (.cons id.labelled (e.labelled nofun))
    | applied f p =>
      cases p <;> exact .cons ⟨_, rfl⟩ (.cons ⟨_, rfl⟩ (.cons ⟨_, rfl⟩ (e.labelled nofun)))
    | mapped f p i => exact .cons ⟨_, rfl⟩ (.cons ⟨_, rfl⟩ (.cons ⟨_, rfl⟩ (e.labelled nofun)))

/-- Every statement has an outline. -/
theorem Statement.outline_ok (s : Statement) : ∃ shown, s.toNode.outline = .ok shown := by
  unfold Node.outline
  cases lines : s.toNode.preorder.mapM Node.outlineLine with
  | ok lines => exact ⟨_, rfl⟩
  | error fault =>
    obtain ⟨entry, member, refused⟩ := mapM_error lines
    obtain ⟨label, labelled⟩ := s.labelled entry member
    rw [Node.outlineLine, labelled] at refused
    cases refused

/-! What is shown. -/

/-- A statement is shown on one line or as its outline. -/
inductive ShownAs : Bool → Statement → String → Prop where
  | inline : OneLine s.toNode.inline → ShownAs false s s.toNode.inline
  | outline : s.toNode.outline = .ok shown → ShownAs true s shown

theorem shownAs_showNode (tree : Bool) (s : Statement) : ShownAs tree s (showNode tree s.toNode) := by
  cases tree with
  | false => exact .inline s.toNode.oneLine_inline
  | true =>
    obtain ⟨shown, outline⟩ := s.outline_ok
    have same : showNode true s.toNode = shown := by
      rw [showNode, if_pos rfl, outline]
    exact same ▸ .outline outline

/-- A fault is shown over a line of the text. -/
inductive ReportedAs (text : List Char) (r : Rejection) : String → Prop where
  | intro : (r.report text).context text ≠ "" → ReportedAs text r
      ("Parse error: " ++ (r.report text).text ++ "\n" ++ ((r.report text).context text ++ "\n"))

theorem Refuses.reportedAs {goal : Goal} (refused : Refuses goal text r) :
    ReportedAs text r (showReport (r.report text) text) := by
  obtain ⟨_, _, _, _, -, -, -, -, shown, _, -, -, context, -⟩ := refused.sound.pointsAt.column
  have filled : (r.report text).context text ≠ "" := by
    rw [context]
    intro empty
    have none := congrArg String.toList empty
    simp at none
  have below : (if ((r.report text).context text).isEmpty then "" else (r.report text).context text ++ "\n") =
      (r.report text).context text ++ "\n" := if_neg (by simpa using filled)
  have same : showReport (r.report text) text = _ :=
    congrArg ("Parse error: " ++ (r.report text).text ++ "\n" ++ ·) below
  exact same ▸ .intro filled

end Formulary
