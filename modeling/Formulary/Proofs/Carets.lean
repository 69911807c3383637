import Formulary.Proofs.Answers

/-! Where the caret of a report stands. Columns count the carriage returns at the end of a line, which are
not shown; so the caret is within the line that is shown, or directly behind it, except for a fault behind
such returns. -/
namespace Formulary

variable {text line shown : List Char} {before after : List (List Char)} {r : Rejection} {column : Nat}

/-- A line over a caret, which is under one of its characters or directly behind the last. -/
def CaretInReach (context : String) : Prop := ∃ shown column, '\n' ∉ shown ∧
  context = String.ofList (shown ++ '\n' :: List.replicate column ' ' ++ ['^']) ∧ column ≤ shown.length

theorem caretInReach_iff (oneLine : '\n' ∉ shown) :
    CaretInReach (String.ofList (shown ++ '\n' :: List.replicate column ' ' ++ ['^'])) ↔
      column ≤ shown.length := by
  constructor
  · rintro ⟨shown', column', oneLine', same, within⟩
    have lines := congrArg splitLines (String.ofList_injective same)
    have spaces (n : Nat) : '\n' ∉ List.replicate n ' ' ++ ['^'] := by simp
    simp only [List.append_assoc, List.cons_append, splitLines_cons oneLine, splitLines_cons oneLine',
      splitLines_of_oneLine (spaces _)] at lines
    have length := congrArg (List.map List.length) lines
    simp at length
    omega
  · exact fun within => ⟨shown, column, oneLine, rfl, within⟩

/-! Positions of faults. -/

/-- The position is directly behind the last character of a line. -/
def EndsLine (text : List Char) (position : Nat) : Prop :=
  position = text.length ∨ text[position]? = some '\n'

theorem endsLine_iff (split : splitLines text = before ++ line :: after) (within : column ≤ line.length) :
    EndsLine text (lineStart before + column) ↔ column = line.length := by
  obtain ⟨tail, rest, -, ends⟩ := drop_lineStart split within
  have inside := lineStart_add_length_le split
  rw [EndsLine, ← List.head?_drop, rest]
  rcases Nat.lt_or_eq_of_le within with less | rfl
  · have visible : (line)[column] ≠ '\n' := fun newline =>
      oneLine_of_split split (newline ▸ List.getElem_mem less)
    rw [List.drop_eq_getElem_cons less]
    simp only [List.cons_append, List.head?_cons, Option.some.injEq, visible, or_false]
    omega
  · rw [List.drop_length, List.nil_append] at rest ⊢
    refine iff_of_true (ends.imp (fun none => ?_) id) rfl
    rw [none, List.drop_eq_nil_iff] at rest
    omega

theorem mem_scan_visible {p : Placed} (found : p ∈ scan text) :
    ∃ c, text[p.start]? = some c ∧ isBlank c = false := by
  obtain ⟨b, c, rest, here, -, visible⟩ := mem_scan found
  exact ⟨c, by rw [← List.head?_drop, here]; rfl, visible⟩

/-- A fault is at the start of the text or at a character that is no blank. -/
theorem Rejection.FoundIn.visible (found : r.FoundIn text) :
    r.position = 0 ∨ ∃ c, text[r.position]? = some c ∧ isBlank c = false := by
  cases found with
  | piece p member _ position => exact .inr (position ▸ mem_scan_visible member)
  | target p member _ _ position => exact .inr (position ▸ mem_scan_visible member)
  | tooEarly _ position =>
    rw [position, lastStart]
    cases last : (scan text).getLast? with
    | none => exact .inl rfl
    | some p => exact .inr (mem_scan_visible (List.mem_of_getLast? last))

theorem Refuses.visible {goal : Goal} (refused : Refuses goal text r) : r.position = 0 ∨
    EndsLine text r.position ∨ ∃ c, text[r.position]? = some c ∧ isBlank c = false := by
  cases goal with
  | line | formula => exact (refused.found nofun).visible.imp_right .inr
  | sheet =>
    rcases parseSheet_error refused with ⟨found, -⟩ | ⟨-, -, newline⟩
    · exact found.visible.imp_right .inr
    · exact .inr (.inl newline.symm)

/-! The caret. -/

/-- The carriage returns at the end of a line stand before the position behind it. -/
theorem getLast?_take_iff {returns : Nat} (last : shown.getLast? ≠ some '\r')
    (split : splitLines text = before ++ (shown ++ List.replicate returns '\r') :: after) :
    (text.take (lineStart before + (shown ++ List.replicate returns '\r').length)).getLast? = some '\r' ↔
      0 < returns := by
  rw [take_lineStart split (Nat.le_refl _), List.take_length]
  cases returns with
  | zero =>
    refine iff_of_false (fun found => ?_) (Nat.lt_irrefl 0)
    rw [List.replicate_zero, List.append_nil, List.getLast?_append, Option.or_eq_some_iff] at found
    rcases found with found | ⟨-, found⟩
    · exact last found
    · rcases List.eq_nil_or_concat before with rfl | ⟨front, l, rfl⟩
      · cases found
      · simp [unlines] at found
  | succ returns => simp [List.replicate_succ', ← List.append_assoc]

/-- The caret is in reach unless the fault is at the end of a line with a carriage return before it. -/
theorem caret_in_reach_iff (goal : Goal) (text : List Char) (r : Rejection) (refused : Refuses goal text r) :
    CaretInReach ((r.report text).context text) ↔
      ¬(EndsLine text r.position ∧ (text.take r.position).getLast? = some '\r') := by
  obtain ⟨before, line, after, column, split, within, position, -, shown, returns, rfl, last, context, -⟩ :=
    refused.sound.pointsAt.column
  have oneLine : '\n' ∉ shown := fun member => oneLine_of_split split (List.mem_append_left _ member)
  have visible := refused.visible
  rw [context, caretInReach_iff oneLine]
  rw [position, endsLine_iff split within] at visible ⊢
  by_cases ends : column = (shown ++ List.replicate returns '\r').length
  · subst ends
    rw [getLast?_take_iff last split, List.length_append, List.length_replicate]
    omega
  · refine iff_of_true ?_ fun behind => ends behind.1
    rcases visible with start | behind | ⟨c, here, notBlank⟩
    · omega
    · exact absurd behind ends
    · -- The character at the position is shown, since it is no carriage return.
      refine Nat.not_lt.mp fun far => ?_
      have less : column < (shown ++ List.replicate returns '\r').length := by omega
      obtain ⟨tail, rest, -⟩ := drop_lineStart split within
      rw [← List.head?_drop, rest, List.drop_eq_getElem_cons less, List.getElem_append_right (by omega),
        List.getElem_replicate] at here
      obtain rfl : '\r' = c := by simpa using here
      cases notBlank

/-- The operand behind the sign is missed at the end of the line, with and without a carriage return. -/
theorem caret_in_reach_without_return :
    (∃ r, Refuses .sheet ['1', '+', '\r', '\n'] r ∧
      ¬CaretInReach ((r.report ['1', '+', '\r', '\n']).context ['1', '+', '\r', '\n'])) ∧
    ∃ r, Refuses .sheet ['1', '+', '\n'] r ∧
      CaretInReach ((r.report ['1', '+', '\n']).context ['1', '+', '\n']) := by
  obtain ⟨r, refused, position⟩ : ∃ r, Refuses .sheet ['1', '+', '\r', '\n'] r ∧ r.position = 3 :=
    ⟨_, rfl, rfl⟩
  obtain ⟨r', refused', position'⟩ : ∃ r, Refuses .sheet ['1', '+', '\n'] r ∧ r.position = 2 :=
    ⟨_, rfl, rfl⟩
  refine ⟨⟨r, refused, ?_⟩, r', refused', ?_⟩
  · rw [caret_in_reach_iff _ _ r refused, position]
    exact fun inReach => inReach ⟨.inr rfl, rfl⟩
  · rw [caret_in_reach_iff _ _ r' refused', position']
    exact fun behind => absurd behind.2 (by decide)

theorem caret_out_of_reach : ¬∀ goal text r, Refuses goal text r →
    CaretInReach ((r.report text).context text) := by
  intro always
  obtain ⟨r, refused, context⟩ : ∃ r, Refuses .sheet ['1', '+', '\r', '\n'] r ∧
      (r.report ['1', '+', '\r', '\n']).context ['1', '+', '\r', '\n'] =
        String.ofList (['1', '+'] ++ '\n' :: List.replicate 3 ' ' ++ ['^']) := ⟨_, rfl, rfl⟩
  have reached := always _ _ r refused
  rw [context, caretInReach_iff (by decide)] at reached
  exact absurd reached (by decide)

end Formulary
