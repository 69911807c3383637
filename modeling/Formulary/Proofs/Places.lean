import Formulary.Parse
import Formulary.Proofs.Scanning
import Mathlib.Algebra.GroupWithZero.Nat

/-! Positions and lines. The lines of a text with their newlines are the text again, so that a position is
a line and a column inside it; and the part of a sheet that is read is made of whole lines. -/
namespace Formulary

variable {text line : List Char} {before after : List (List Char)}

/-! Lines. -/

/-- More text in front of the first line. -/
theorem splitLines_append_line (oneLine : '\n' ∉ line) (split : splitLines text = first :: after) :
    splitLines (line ++ text) = (line ++ first) :: after := by
  induction line with
  | nil => exact split
  | cons c line ih =>
    have different : c ≠ '\n' := Ne.symm (List.ne_of_not_mem_cons oneLine)
    rw [List.cons_append, splitLines, if_neg different, ih (List.not_mem_of_not_mem_cons oneLine),
      List.cons_append]

theorem splitLines_of_oneLine (oneLine : '\n' ∉ line) : splitLines line = [line] := by
  have split := splitLines_append_line oneLine (show splitLines [] = [[]] from rfl)
  rwa [List.append_nil] at split

theorem splitLines_cons (oneLine : '\n' ∉ line) (rest : List Char) :
    splitLines (line ++ '\n' :: rest) = line :: splitLines rest := by
  have split := splitLines_append_line oneLine
    (show splitLines ('\n' :: rest) = [] :: splitLines rest from rfl)
  rwa [List.append_nil] at split

theorem oneLine_of_mem_splitLines (found : line ∈ splitLines text) : '\n' ∉ line := by
  fun_induction splitLines text generalizing line with
  | case1 =>
    obtain rfl := List.mem_singleton.mp found
    exact List.not_mem_nil
  | case2 cs ih =>
    rcases List.mem_cons.mp found with rfl | found
    · exact List.not_mem_nil
    · exact ih found
  | case3 c cs _ none ih => exact absurd none (splitLines_ne_nil cs)
  | case4 c cs different first rest split ih =>
    rcases List.mem_cons.mp found with rfl | found
    · exact List.not_mem_cons_of_ne_of_not_mem (Ne.symm different) (ih (split ▸ .head _))
    · exact ih (split ▸ .tail _ found)

/-- Lines with a newline behind each. -/
def unlines (lines : List (List Char)) : List Char := lines.flatMap (· ++ ['\n'])

/-- Where the line behind some lines begins. -/
def lineStart (before : List (List Char)) : Nat := (unlines before).length

theorem unlines_cons (line : List Char) (lines : List (List Char)) :
    unlines (line :: lines) = line ++ '\n' :: unlines lines := by
  simp [unlines]

theorem lineStart_cons (line : List Char) (lines : List (List Char)) :
    lineStart (line :: lines) = line.length + 1 + lineStart lines := by
  simp only [lineStart, unlines_cons, List.length_append, List.length_cons]
  omega

theorem splitLines_unlines_append (oneLines : ∀ line ∈ before, '\n' ∉ line) (text : List Char) :
    splitLines (unlines before ++ text) = before ++ splitLines text := by
  induction before with
  | nil => rfl
  | cons line before ih =>
    rw [unlines_cons, List.append_assoc, List.cons_append, splitLines_cons (oneLines line (.head _)),
      ih fun l member => oneLines l (.tail _ member)]
    rfl

theorem splitLines_unlines (oneLines : ∀ line ∈ before, '\n' ∉ line) :
    splitLines (unlines before) = before ++ [[]] := by
  have split := splitLines_unlines_append oneLines []
  rwa [List.append_nil] at split

/-- The text is the lines before a line, with their newlines, the line, and what is behind it. -/
theorem text_of_splitLines (split : splitLines text = before ++ line :: after) :
    ∃ tail, text = unlines before ++ (line ++ tail) ∧ (tail = [] ↔ after = []) ∧
      (tail = [] ∨ tail.head? = some '\n') := by
  have whole := intercalate_splitLines text
  rw [split] at whole
  obtain rfl := whole
  clear split
  induction before with
  | nil =>
    cases after with
    | nil => exact ⟨[], by simp [unlines], by simp, .inl rfl⟩
    | cons next after =>
      refine ⟨'\n' :: ['\n'].intercalate (next :: after), ?_, by simp, .inr rfl⟩
      rw [List.nil_append, List.intercalate_cons_cons]
      simp [unlines]
  | cons first before ih =>
    obtain ⟨tail, same, ends⟩ := ih
    refine ⟨tail, ?_, ends⟩
    obtain ⟨next, rest, lines⟩ := List.exists_cons_of_ne_nil (l := before ++ line :: after) (by simp)
    rw [List.cons_append, lines, List.intercalate_cons_cons, ← lines, same, unlines_cons]
    simp

theorem splitLines_text (text : List Char) : unlines (splitLines text) = text ++ ['\n'] := by
  obtain ⟨line, rest, split⟩ := List.exists_cons_of_ne_nil (splitLines_ne_nil text)
  have whole := intercalate_splitLines text
  rw [split] at whole ⊢
  rw [← whole]
  clear split whole
  induction rest generalizing line with
  | nil => simp [unlines]
  | cons next rest ih =>
    rw [unlines_cons, ih next, List.intercalate_cons_cons]
    simp

/-! Positions. -/

/-- Every position of a text is on one of its lines or directly behind one. -/
theorem exists_line {position : Nat} (inside : position ≤ text.length) : ∃ before line after k,
    splitLines text = before ++ line :: after ∧ k ≤ line.length ∧ position = lineStart before + k := by
  fun_induction splitLines text generalizing position with
  | case1 => exact ⟨[], [], [], 0, rfl, Nat.le_refl 0, Nat.le_zero.mp inside⟩
  | case2 cs ih =>
    cases position with
    | zero => exact ⟨[], [], splitLines cs, 0, rfl, Nat.le_refl 0, rfl⟩
    | succ position =>
      obtain ⟨before, line, after, k, split, within, rfl⟩ := ih (Nat.le_of_succ_le_succ inside)
      refine ⟨[] :: before, line, after, k, by rw [split]; rfl, within, ?_⟩
      rw [lineStart_cons, List.length_nil]
      omega
  | case3 c cs _ none ih => exact absurd none (splitLines_ne_nil cs)
  | case4 c cs _ first rest split ih =>
    cases position with
    | zero => exact ⟨[], c :: first, rest, 0, rfl, Nat.zero_le _, rfl⟩
    | succ position =>
      obtain ⟨before, line, after, k, lines, within, rfl⟩ := ih (Nat.le_of_succ_le_succ inside)
      rw [split] at lines
      cases before with
      | nil =>
        obtain ⟨rfl, rfl⟩ := List.cons.inj lines
        exact ⟨[], c :: first, rest, k + 1, rfl, Nat.succ_le_succ within, rfl⟩
      | cons _ before =>
        obtain ⟨rfl, rfl⟩ := List.cons.inj lines
        refine ⟨(c :: first) :: before, line, after, k, rfl, within, ?_⟩
        simp only [lineStart_cons, List.length_cons]
        omega

theorem take_lineStart {k : Nat} (split : splitLines text = before ++ line :: after)
    (within : k ≤ line.length) : text.take (lineStart before + k) = unlines before ++ line.take k := by
  obtain ⟨tail, rfl, -⟩ := text_of_splitLines split
  rw [lineStart, List.take_length_add_append, List.take_append_of_le_length within]

theorem drop_lineStart {k : Nat} (split : splitLines text = before ++ line :: after)
    (within : k ≤ line.length) : ∃ tail, text.drop (lineStart before + k) = line.drop k ++ tail ∧
      (tail = [] ↔ after = []) ∧ (tail = [] ∨ tail.head? = some '\n') := by
  obtain ⟨tail, rfl, ends⟩ := text_of_splitLines split
  refine ⟨tail, ?_, ends⟩
  rw [lineStart, List.drop_length_add_append, List.drop_append_of_le_length within]

theorem lineStart_add_length_le (split : splitLines text = before ++ line :: after) :
    lineStart before + line.length ≤ text.length := by
  obtain ⟨tail, rfl, -⟩ := text_of_splitLines split
  simp only [lineStart, List.length_append]
  omega

theorem count_unlines (oneLines : ∀ line ∈ before, '\n' ∉ line) :
    (unlines before).count '\n' = before.length := by
  induction before with
  | nil => rfl
  | cons line before ih =>
    rw [unlines_cons, List.count_append, List.count_cons_self,
      ih fun l member => oneLines l (.tail _ member),
      List.count_eq_zero_of_not_mem (oneLines line (.head _)), Nat.zero_add, List.length_cons]

theorem unlines_reverse_head (before : List (List Char)) :
    ∀ c ∈ (unlines before).reverse.head?, (c != '\n') = false := by
  rcases List.eq_nil_or_concat before with rfl | ⟨front, line, rfl⟩
  · exact nofun
  · simp [unlines]

theorem lastLineStart_append {front : List Char} (ends : ∀ c ∈ front.reverse.head?, (c != '\n') = false)
    (oneLine : '\n' ∉ line) : lastLineStart (front ++ line) = front.length := by
  have visible : ∀ c ∈ line.reverse, (c != '\n') = true := by
    intro c member
    simpa using fun same : c = '\n' => oneLine (same ▸ List.mem_reverse.mp member)
  rw [lastLineStart, List.reverse_append, takeWhile_append_stop visible ends]
  simp

theorem cutAt_natCast (text : List Char) (n : Nat) : cutAt text n = n := by
  rw [cutAt, if_neg (by omega), Int.toNat_natCast]

/-- A place depends on the text before it only. -/
theorem locate_congr {a b : List Char} {n : Nat} (same : a.take n = b.take n) :
    locate a n = locate b n := by
  simp only [locate, cutAt_natCast, same]

theorem oneLine_of_split (split : splitLines text = before ++ line :: after) : '\n' ∉ line := by
  have member : line ∈ splitLines text := by simp [split]
  exact oneLine_of_mem_splitLines member

theorem count_take {k : Nat} (split : splitLines text = before ++ line :: after)
    (within : k ≤ line.length) : (text.take (lineStart before + k)).count '\n' = before.length := by
  have oneLines : ∀ l ∈ before, '\n' ∉ l := fun l member =>
    oneLine_of_mem_splitLines (split ▸ List.mem_append_left _ member)
  have oneLine : '\n' ∉ line.take k := fun member =>
    oneLine_of_split split (List.mem_of_mem_take member)
  rw [take_lineStart split within, List.count_append, count_unlines oneLines,
    List.count_eq_zero_of_not_mem oneLine, Nat.add_zero]

/-- A place names the line and the column of a position. -/
theorem locate_line {k : Nat} (split : splitLines text = before ++ line :: after)
    (within : k ≤ line.length) :
    locate text (lineStart before + k : Nat) = ⟨before.length + 1, k + 1⟩ := by
  have oneLine : '\n' ∉ line.take k := fun member =>
    oneLine_of_split split (List.mem_of_mem_take member)
  have start : lastLineStart (text.take (lineStart before + k)) = lineStart before := by
    rw [take_lineStart split within]
    exact lastLineStart_append (unlines_reverse_head before) oneLine
  simp only [locate, cutAt_natCast, count_take split within, start]
  congr 1
  omega

/-! Running counts. -/

/-- The lines of a text counted while it is passed over, stretch by stretch. -/
structure LineCount where
  offset : Nat
  line : Nat
  lineStart : Nat

namespace LineCount

def start : LineCount := ⟨0, 1, 0⟩

def pass (n : LineCount) (stretch : List Char) : LineCount where
  offset := n.offset + stretch.length
  line := n.line + stretch.count '\n'
  lineStart := if '\n' ∈ stretch then n.offset + lastLineStart stretch else n.lineStart

def place (n : LineCount) : Place := ⟨n.line, n.offset - n.lineStart + 1⟩

end LineCount

theorem exists_lastLine (text : List Char) : ∃ before line, splitLines text = before ++ [line] ∧
    text = unlines before ++ line ∧ '\n' ∉ line := by
  rcases List.eq_nil_or_concat (splitLines text) with none | ⟨before, line, split⟩
  · exact absurd none (splitLines_ne_nil text)
  · rw [List.concat_eq_append] at split
    obtain ⟨tail, whole, last, -⟩ := text_of_splitLines split
    rw [last.mpr rfl, List.append_nil] at whole
    have member : line ∈ splitLines text := by simp [split]
    exact ⟨before, line, split, whole, oneLine_of_mem_splitLines member⟩

/-- The last line begins in the last stretch that has a newline. -/
theorem lastLineStart_stretch (front stretch : List Char) : lastLineStart (front ++ stretch) =
    if '\n' ∈ stretch then front.length + lastLineStart stretch else lastLineStart front := by
  split
  · next newline =>
    obtain ⟨before, line, -, rfl, oneLine⟩ := exists_lastLine stretch
    have ends := unlines_reverse_head before
    have shared : ∀ c ∈ (front ++ unlines before).reverse.head?, (c != '\n') = false := by
      cases before with
      | nil => exact absurd newline oneLine
      | cons first rest =>
        have some : (unlines (first :: rest)).reverse ≠ [] := by simp [unlines_cons]
        obtain ⟨c, cs, reversed⟩ := List.exists_cons_of_ne_nil some
        rw [reversed] at ends
        rw [List.reverse_append, reversed]
        exact ends
    rw [← List.append_assoc, lastLineStart_append shared oneLine, lastLineStart_append ends oneLine,
      List.length_append]
  · next oneLine =>
    obtain ⟨before, line, -, rfl, last⟩ := exists_lastLine front
    have visible : '\n' ∉ line ++ stretch := by simp [last, oneLine]
    rw [List.append_assoc, lastLineStart_append (unlines_reverse_head before) visible,
      lastLineStart_append (unlines_reverse_head before) last]

theorem LineCount.pass_pass (n : LineCount) (a b : List Char) :
    (n.pass a).pass b = n.pass (a ++ b) := by
  simp only [pass, lastLineStart_stretch, List.mem_append, List.length_append, List.count_append,
    Nat.add_assoc]
  congr 1
  by_cases inB : '\n' ∈ b <;> by_cases inA : '\n' ∈ a <;> simp [inA, inB]

theorem LineCount.pass_flatten (n : LineCount) (stretches : List (List Char)) :
    stretches.foldl pass n = n.pass stretches.flatten := by
  induction stretches generalizing n with
  | nil => simp [pass]
  | cons stretch stretches ih => rw [List.foldl_cons, ih, pass_pass, List.flatten_cons]

/-- The place that is counted is that of the position, however the text before it is cut. -/
theorem LineCount.place_foldl {n : Nat} (inside : n ≤ text.length) (stretches : List (List Char))
    (cut : stretches.flatten = text.take n) :
    (stretches.foldl pass start).place = locate text n := by
  have length : (text.take n).length = n := List.length_take_of_le inside
  have lineStart : (if '\n' ∈ text.take n then 0 + lastLineStart (text.take n) else 0) =
      lastLineStart (text.take n) := by
    split
    · exact Nat.zero_add _
    · next oneLine => exact (lastLineStart_append (unlines_reverse_head []) oneLine).symm
  rw [pass_flatten, cut]
  simp only [place, pass, start, locate, cutAt_natCast, lineStart, length]
  congr 1
  · omega
  · omega

/-! Places in order. -/

/-- The lines are the parts of the text between its newlines. -/
theorem splitLines_eq_splitOn (text : List Char) : splitLines text = text.splitOn '\n' := by
  have cut := List.splitOn_intercalate '\n' (fun _ => oneLine_of_mem_splitLines) (splitLines_ne_nil text)
  rw [intercalate_splitLines] at cut
  exact cut.symm

theorem lineStart_eq_sum (lines : List (List Char)) : lineStart lines = (lines.map (·.length + 1)).sum := by
  induction lines with
  | nil => rfl
  | cons line lines ih => rw [lineStart_cons, ih, List.map_cons, List.sum_cons]

/-- The line decides, and on one line the column. -/
def Place.Before (a b : Place) : Prop := a.line < b.line ∨ a.line = b.line ∧ a.column < b.column

/-- Positions behind the text come later still. -/
theorem locate_before {p q : Nat} (less : p < q) : (locate text p).Before (locate text q) := by
  obtain ⟨stretch, cut⟩ : text.take p <+: text.take q := List.take_prefix_take_left (Nat.le_of_lt less)
  have row : ((locate text q).line : Int) = (locate text p).line + stretch.count '\n' := by
    simp only [locate, cutAt_natCast, ← cut, List.count_append]
    omega
  by_cases newline : '\n' ∈ stretch
  · left
    have some : 0 < stretch.count '\n' := List.count_pos_iff.mpr newline
    omega
  · right
    have start : lastLineStart (text.take q) = lastLineStart (text.take p) := by
      rw [← cut, lastLineStart_stretch, if_neg newline]
    constructor
    · rw [row, List.count_eq_zero_of_not_mem newline]
      omega
    · simp only [locate, cutAt_natCast, start]
      omega

/-- A position can be told from its place: the place is on a line of the text or directly behind one, and
the lines before it, each with its newline, and the columns before it make up the position. Later
positions have later places. -/
theorem locate_invertible_and_ordered (text : List Char) :
    (∀ p ≤ text.length, ∃ line column : Nat, locate text p = ⟨line, column⟩ ∧
      1 ≤ line ∧ line ≤ (text.splitOn '\n').length ∧ 1 ≤ column ∧
      (∃ l, (text.splitOn '\n')[line - 1]? = some l ∧ column ≤ l.length + 1) ∧
      (((text.splitOn '\n').take (line - 1)).map (·.length + 1)).sum + (column - 1) = p) ∧
    ∀ p q : Nat, p < q → (locate text p).Before (locate text q) := by
  refine ⟨fun p inside => ?_, fun p q => locate_before⟩
  obtain ⟨before, line, after, k, split, within, rfl⟩ := exists_line inside
  rw [← splitLines_eq_splitOn, split]
  refine ⟨before.length + 1, k + 1, ?_, by omega, by simp, by omega, ⟨line, by simp, by omega⟩, ?_⟩
  · simpa using locate_line split within
  · rw [Nat.add_sub_cancel, Nat.add_sub_cancel, List.take_left, lineStart_eq_sum]

/-- On an empty line, and at the start of the line behind it. -/
theorem locate_invertible_and_ordered_on_empty_line :
    (∃ line column : Nat, locate ['a', '\n', '\n', 'b'] (2 : Nat) = ⟨line, column⟩ ∧
      (((['a', '\n', '\n', 'b'].splitOn '\n').take (line - 1)).map (·.length + 1)).sum + (column - 1) = 2) ∧
    (locate ['a', '\n', '\n', 'b'] (2 : Nat)).Before (locate ['a', '\n', '\n', 'b'] (3 : Nat)) := by
  obtain ⟨invertible, ordered⟩ := locate_invertible_and_ordered ['a', '\n', '\n', 'b']
  obtain ⟨line, column, place, -, -, -, -, position⟩ := invertible 2 (by decide)
  exact ⟨⟨line, column, place, position⟩, ordered 2 3 (by decide)⟩

/-! The part of a sheet that is read. -/

/-- The text before the first line that begins with the end mark, or all of it. -/
inductive BodyOf (text : List Char) : List Char → Prop where
  | whole : (∀ line ∈ splitLines text, isEndLine line = false) → BodyOf text text
  | upTo (before : List (List Char)) (line : List Char) (after : List (List Char)) :
    splitLines text = before ++ line :: after → isEndLine line = true →
    (∀ l ∈ before, isEndLine l = false) → BodyOf text (unlines before)

theorem endLineStart?_go (lines : List (List Char)) (offset : Nat) :
    (endLineStart?.go offset lines = none ∧ ∀ line ∈ lines, isEndLine line = false) ∨
    ∃ before line after, lines = before ++ line :: after ∧ isEndLine line = true ∧
      (∀ l ∈ before, isEndLine l = false) ∧
        endLineStart?.go offset lines = some (offset + lineStart before) := by
  induction lines generalizing offset with
  | nil => exact .inl ⟨rfl, nofun⟩
  | cons line lines ih =>
    rw [endLineStart?.go]
    cases ends : isEndLine line with
    | true => exact .inr ⟨[], line, lines, rfl, ends, nofun, rfl⟩
    | false =>
      rw [if_neg Bool.false_ne_true]
      rcases ih (offset + line.length + 1) with ⟨none, plain⟩ | ⟨before, last, after, rfl, found⟩
      · exact .inl ⟨none, List.forall_mem_cons.mpr ⟨ends, plain⟩⟩
      · obtain ⟨endLine, plain, start⟩ := found
        refine .inr ⟨line :: before, last, after, rfl, endLine,
          List.forall_mem_cons.mpr ⟨ends, plain⟩, ?_⟩
        rw [start, lineStart_cons]
        congr 1
        omega

theorem bodyOf_sheetBody (text : List Char) : BodyOf text (sheetBody text) := by
  rcases endLineStart?_go (splitLines text) 0 with ⟨none, plain⟩ | ⟨before, line, after, split, found⟩
  · rw [sheetBody, endLineStart?, none]
    exact .whole plain
  · obtain ⟨ends, plain, start⟩ := found
    have body : text.take (lineStart before) = unlines before := by
      simpa using take_lineStart split (Nat.zero_le line.length)
    have found : sheetBody text = unlines before := by
      rw [sheetBody, endLineStart?, start, Nat.zero_add]
      exact body
    exact found ▸ .upTo before line after split ends plain

namespace BodyOf

variable {body body' : List Char}

theorem start (part : BodyOf text body) : body <+: text := by
  cases part with
  | whole => exact List.prefix_rfl
  | upTo before line after split =>
    obtain ⟨tail, whole, -⟩ := text_of_splitLines split
    exact ⟨line ++ tail, whole.symm⟩

/-- The first end line is the same whichever way it is found. -/
theorem unique (part : BodyOf text body) (other : BodyOf text body') : body = body' := by
  cases part with
  | whole plain =>
    cases other with
    | whole => rfl
    | upTo before line after split ends =>
      cases (plain line (by simp [split])).symm.trans ends
  | upTo before line after split ends plain =>
    cases other with
    | whole plain' => cases (plain' line (by simp [split])).symm.trans ends
    | upTo before' line' after' split' ends' plain' =>
      rcases List.append_eq_append_iff.mp (split.symm.trans split') with
        ⟨_ | ⟨l, ls⟩, lines, rest⟩ | ⟨_ | ⟨l, ls⟩, lines, rest⟩
      · rw [lines, List.append_nil]
      · obtain ⟨rfl, -⟩ := List.cons.inj rest
        cases (plain' line (by simp [lines])).symm.trans ends
      · rw [lines, List.append_nil]
      · obtain ⟨rfl, -⟩ := List.cons.inj rest
        cases (plain line' (by simp [lines])).symm.trans ends'

/-- The first line is read unless it is an end line. -/
theorem firstLine (part : BodyOf text body) (split : splitLines text = line :: after)
    (plain : isEndLine line = false) : line <+: body := by
  cases part with
  | whole =>
    obtain ⟨tail, same, -⟩ := text_of_splitLines (split.trans (List.nil_append _).symm)
    exact ⟨tail, same.symm⟩
  | upTo before last rest found ends =>
    rw [split] at found
    cases before with
    | nil =>
      obtain ⟨rfl, -⟩ := List.cons.inj found
      cases plain.symm.trans ends
    | cons first before =>
      obtain ⟨rfl, -⟩ := List.cons.inj found
      rw [unlines_cons]
      exact List.prefix_append line _

/-- Lines that are no end lines are read, whatever follows. -/
theorem behind (oneLines : ∀ line ∈ before, '\n' ∉ line)
    (plain : ∀ line ∈ before, isEndLine line = false) (part : BodyOf text body) :
    BodyOf (unlines before ++ text) (unlines before ++ body) := by
  have split := splitLines_unlines_append oneLines text
  cases part with
  | whole rest =>
    apply BodyOf.whole
    intro line member
    rw [split] at member
    rcases List.mem_append.mp member with member | member
    · exact plain line member
    · exact rest line member
  | upTo between line after found ends rest =>
    have whole : unlines before ++ unlines between = unlines (before ++ between) :=
      List.flatMap_append.symm
    rw [whole]
    apply BodyOf.upTo (before ++ between) line after
    · rw [split, found, List.append_assoc]
    · exact ends
    · intro l member
      rcases List.mem_append.mp member with member | member
      · exact plain l member
      · exact rest l member

/-- The lines before an end line, with nothing on a last line. -/
theorem splitLines_upTo (split : splitLines text = before ++ line :: after) :
    splitLines (unlines before) = before ++ [[]] :=
  splitLines_unlines fun _ member =>
    oneLine_of_mem_splitLines (split ▸ List.mem_append_left _ member)

theorem plain (part : BodyOf text body) (found : line ∈ splitLines body) : isEndLine line = false := by
  cases part with
  | whole plain => exact plain line found
  | upTo before last after split _ plain =>
    rw [splitLines_upTo split] at found
    rcases List.mem_append.mp found with found | found
    · exact plain line found
    · rw [List.mem_singleton.mp found]
      rfl

/-- A line of the part that is read stands in the text where it stands in the part. -/
theorem sameLine (part : BodyOf text body) (split : splitLines body = before ++ line :: after)
    (filled : line ≠ []) : ∃ behind, splitLines text = before ++ line :: behind := by
  cases part with
  | whole => exact ⟨after, split⟩
  | upTo lines last rest whole =>
    rw [splitLines_upTo whole] at split
    rcases List.eq_nil_or_concat after with rfl | ⟨middle, blank, rfl⟩
    · exact absurd (List.append_inj' split rfl).2.symm (by simpa using filled)
    · have lines_eq : lines ++ [[]] = (before ++ line :: middle) ++ [blank] := by simpa using split
      obtain ⟨rfl, -⟩ := List.append_inj' lines_eq rfl
      exact ⟨middle ++ last :: rest, by simpa using whole⟩

end BodyOf

end Formulary
