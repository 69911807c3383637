/-!
Places in a text. A position counts characters from the start of the text; a place names the line and
the column, both counted from one. Lines end at newlines only.
-/
namespace Formulary

structure Place where
  line : Int
  column : Int
deriving DecidableEq, Repr, Inhabited

/-- The number of characters before a position; a negative position counts from the end of the text. -/
def cutAt (text : List Char) (position : Int) : Nat :=
  if position < 0 then (text.length + position).toNat else position.toNat

/-- The offset at which the last line of a text begins. -/
def lastLineStart (text : List Char) : Nat :=
  text.length - (text.reverse.takeWhile (· != '\n')).length

/-- The line is found by the newlines before the position. The column is the distance from the start of
that line, also for positions outside the text. -/
def locate (text : List Char) (position : Int) : Place :=
  let before := text.take (cutAt text position)
  { line := before.count '\n' + 1
    column := position - lastLineStart before + 1 }

/-- The text cut at its newlines; a text without newlines is one line. -/
def splitLines : List Char → List (List Char)
  | [] => [[]]
  | c :: cs =>
    if c = '\n' then [] :: splitLines cs
    else match splitLines cs with
      | [] => [[c]]
      | line :: rest => (c :: line) :: rest

theorem splitLines_ne_nil (cs : List Char) : splitLines cs ≠ [] := by
  induction cs with
  | nil => simp [splitLines]
  | cons c cs ih =>
    simp only [splitLines]
    split
    · simp
    · split <;> simp

/-- The lines with a newline between any two are the text. -/
theorem intercalate_splitLines (cs : List Char) : ['\n'].intercalate (splitLines cs) = cs := by
  induction cs with
  | nil => rfl
  | cons c cs ih =>
    obtain ⟨line, rest, split⟩ := List.exists_cons_of_ne_nil (splitLines_ne_nil cs)
    rw [split] at ih
    simp only [splitLines, split]
    split
    · next newline =>
      subst newline
      rw [List.intercalate_cons_cons, ih]
      rfl
    · cases rest <;> simp_all [List.intercalate]

end Formulary
