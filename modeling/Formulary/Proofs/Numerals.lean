import Formulary.Proofs.Scanning
import Formulary.Reader.Feed

/-! Decimal literals of binary64 values. A finite value is a whole number of units of 2^-1074, so that
1074 digits behind the point are enough to write it exactly. -/
namespace Formulary

/-- The values without a sign: whole counts of units that 53 binary digits can tell, and infinity. -/
inductive Binary64.Writable : Binary64 → Prop where
  | finite : units < bound → spacing units ∣ units → Writable (.finite false units)
  | infinite : Writable (.infinite false)

/-! Digits. -/

theorem exists_digit {k : Nat} (small : k < 10) : ∃ c, digitValue? c = some k := by
  have digits : ∀ k, k < 10 → digitValue? (Char.ofNat (48 + k)) = some k := by decide
  exact ⟨_, digits k small⟩

theorem digitsValue_snoc (ds : List Char) (c : Char) :
    digitsValue (ds ++ [c]) = 10 * digitsValue ds + (digitValue? c).getD 0 := by
  simp [digitsValue]

theorem digitsValue_zeros (n : Nat) (ds : List Char) :
    digitsValue (List.replicate n '0' ++ ds) = digitsValue ds := by
  induction n with
  | zero => rfl
  | succ n ih =>
    have zero : digitsValue ('0' :: (List.replicate n '0' ++ ds)) =
        digitsValue (List.replicate n '0' ++ ds) := rfl
    rw [List.replicate_succ, List.cons_append, zero, ih]

theorem exists_digits (n : Nat) : ∃ ds, (∀ c ∈ ds, isDigit c = true) ∧ digitsValue ds = n := by
  induction n using Nat.strongRecOn with
  | ind n ih =>
    by_cases zero : n = 0
    · subst zero
      exact ⟨[], nofun, rfl⟩
    · obtain ⟨ds, digits, value⟩ := ih (n / 10) (by omega)
      obtain ⟨c, digit⟩ := exists_digit (Nat.mod_lt n (by decide : 10 > 0))
      refine ⟨ds ++ [c], ?_, ?_⟩
      · intro d member
        rcases List.mem_append.mp member with found | found
        · exact digits d found
        · obtain rfl := List.mem_singleton.mp found
          simp [isDigit, digit]
      · rw [digitsValue_snoc, value, digit, Option.getD_some]
        omega

/-- The digits of a number with as many of them behind the point as one likes. -/
theorem exists_literal (n places : Nat) : ∃ whole fraction,
    (Lexeme.number whole fraction).Spelt ∧ fraction.length = places ∧
      digitsValue (whole ++ fraction) = n := by
  obtain ⟨ds, digits, value⟩ := exists_digits n
  let all := List.replicate (places + 1) '0' ++ ds
  have long : places + 1 ≤ all.length := by simp [all]
  refine ⟨all.take (all.length - places), all.drop (all.length - places), ⟨?_, ?_⟩, ?_, ?_⟩
  · intro none
    have := congrArg List.length none
    rw [List.length_take, List.length_nil] at this
    omega
  · rw [List.take_append_drop]
    intro c member
    rcases List.mem_append.mp member with found | found
    · rw [(List.mem_replicate.mp found).2]
      decide
    · exact digits c found
  · rw [List.length_drop]
    omega
  · rw [List.take_append_drop, digitsValue_zeros, value]

/-! Exact values. -/

theorem twoPow_pos (n : Nat) : 0 < twoPow n := Nat.pow_pos (by decide)

theorem tenPow_pos (n : Nat) : 0 < tenPow n := Nat.pow_pos (by decide)

theorem twoPow_mul (m n : Nat) : twoPow m * twoPow n = twoPow (m + n) := (Nat.pow_add 2 m n).symm

/-- Halving can be written with one more digit. -/
theorem exists_scaled (n places : Nat) : ∃ m, m * twoPow places = n * tenPow places := by
  refine ⟨n * Nat.pow 5 places, ?_⟩
  have product : tenPow places = Nat.pow 5 places * twoPow places := Nat.mul_pow 5 2 places
  rw [product, Nat.mul_assoc]

namespace Binary64

theorem bitLength_twoPow (n : Nat) : bitLength (twoPow n) = n + 1 := by
  have positive := twoPow_pos n
  have log : (twoPow n).log2 = n := Nat.log2_two_pow
  rw [bitLength, if_neg (by omega), log]

theorem spacing_dvd_twoPow (n : Nat) : spacing (twoPow n) ∣ twoPow n := by
  rw [spacing, bitLength_twoPow]
  exact Nat.pow_dvd_pow 2 (by omega)

theorem spacing_dvd_bound : spacing bound ∣ bound := by
  unfold bound one
  rw [twoPow_mul]
  exact spacing_dvd_twoPow _

theorem bitLength_le {n k : Nat} (small : n < twoPow k) : bitLength n ≤ k := by
  by_cases zero : n = 0
  · rw [bitLength, if_pos zero]
    omega
  · rw [bitLength, if_neg zero]
    have log : n.log2 < k := (Nat.log2_lt zero).mpr small
    omega

theorem lt_twoPow_bitLength (n : Nat) : n < twoPow (bitLength n) := by
  by_cases zero : n = 0
  · rw [zero]
    exact twoPow_pos _
  · rw [bitLength, if_neg zero]
    exact Nat.lt_log2_self

theorem nearestEven_le (n d : Nat) : nearestEven n d ≤ n / d + 1 := by
  unfold nearestEven
  dsimp only
  split
  · omega
  · split <;> omega

/-- 53 binary digits and zeros behind them. -/
theorem spacing_dvd_mul {n : Nat} (k : Nat) (digits : n ≤ twoPow 53) :
    spacing (n * twoPow k) ∣ n * twoPow k := by
  rcases Nat.lt_or_eq_of_le digits with small | rfl
  · have room : 0 < twoPow k := twoPow_pos k
    have below : n * twoPow k < twoPow (53 + k) := by
      rw [← twoPow_mul]
      exact Nat.mul_lt_mul_of_pos_right small room
    have length := bitLength_le below
    have step : spacing (n * twoPow k) ∣ twoPow k := Nat.pow_dvd_pow 2 (by omega)
    exact Nat.dvd_trans step (Nat.dvd_mul_left _ _)
  · rw [twoPow_mul]
    exact spacing_dvd_twoPow _

/-- Rounding keeps 53 binary digits. -/
theorem ofRatio_writable (numerator denominator : Nat) :
    (ofRatio false numerator denominator).Writable := by
  unfold ofRatio
  dsimp only
  generalize numerator * one = scaled
  generalize floor : scaled / denominator = whole
  have digits : nearestEven scaled (denominator * spacing whole) ≤ twoPow 53 := by
    have near := nearestEven_le scaled (denominator * spacing whole)
    rw [← Nat.div_div_eq_div_mul, floor] at near
    have length : twoPow (bitLength whole) ≤ twoPow (bitLength whole - 53) * twoPow 53 := by
      rw [twoPow_mul]
      exact Nat.pow_le_pow_right (by decide) (by omega)
    have below : whole / spacing whole < twoPow 53 :=
      Nat.div_lt_of_lt_mul (Nat.lt_of_lt_of_le (lt_twoPow_bitLength whole) length)
    omega
  split
  · next small => exact .finite small (spacing_dvd_mul _ digits)
  · exact .infinite

/-- A quotient that is a value is rounded to it. -/
theorem ofRatio_exact {negative : Bool} {numerator denominator units : Nat}
    (positive : 0 < denominator) (exact : numerator * one = units * denominator)
    (fits : spacing units ∣ units) : ofRatio negative numerator denominator =
      if units < bound then .finite negative units else .infinite negative := by
  obtain ⟨count, product⟩ := fits
  have step : 0 < spacing units := twoPow_pos _
  unfold ofRatio
  dsimp only
  rw [exact, Nat.mul_div_cancel _ positive]
  generalize spacing units = s at product step
  have nearest : nearestEven (units * denominator) (denominator * s) = count := by
    have split : units * denominator = count * (denominator * s) := by
      rw [product, Nat.mul_comm s count, Nat.mul_assoc, Nat.mul_comm s denominator]
    rw [split]
    exact nearestEven_mul count _ (Nat.mul_pos positive step)
  rw [nearest, Nat.mul_comm count s, ← product]

theorem exists_numeral {units : Nat} (fits : spacing units ∣ units) :
    ∃ whole fraction, (Lexeme.number whole fraction).Spelt ∧ numberValue whole fraction =
      if units < bound then .finite false units else .infinite false := by
  obtain ⟨n, exact⟩ := exists_scaled units 1074
  obtain ⟨whole, fraction, spelt, places, value⟩ := exists_literal n 1074
  refine ⟨whole, fraction, spelt, ?_⟩
  rw [numberValue, value, places]
  exact ofRatio_exact (tenPow_pos _) exact fits

theorem Writable.exists_numeral {x : Binary64} (writable : x.Writable) :
    ∃ whole fraction, (Lexeme.number whole fraction).Spelt ∧ numberValue whole fraction = x := by
  cases writable with
  | finite small fits =>
    obtain ⟨whole, fraction, spelt, value⟩ := Binary64.exists_numeral fits
    exact ⟨whole, fraction, spelt, by rw [value, if_pos small]⟩
  | infinite =>
    obtain ⟨whole, fraction, spelt, value⟩ := Binary64.exists_numeral spacing_dvd_bound
    exact ⟨whole, fraction, spelt, by rw [value, if_neg (Nat.lt_irrefl _)]⟩

/-- The values without a sign are those that a literal has. -/
theorem writable_iff (x : Binary64) : x.Writable ↔
    ∃ whole fraction, (Lexeme.number whole fraction).Spelt ∧ numberValue whole fraction = x := by
  constructor
  · exact Writable.exists_numeral
  · rintro ⟨whole, fraction, -, rfl⟩
    exact ofRatio_writable _ _

end Binary64

/-- A literal for each value that has one. -/
structure Numerals where
  whole : Binary64 → List Char
  fraction : Binary64 → List Char
  spelt : ∀ x, x.Writable → (Lexeme.number (whole x) (fraction x)).Spelt
  value : ∀ x, x.Writable → numberValue (whole x) (fraction x) = x

theorem nonempty_numerals : Nonempty Numerals := by
  have literal : ∀ x : Binary64, ∃ digits : List Char × List Char, x.Writable →
      (Lexeme.number digits.1 digits.2).Spelt ∧ numberValue digits.1 digits.2 = x := by
    intro x
    by_cases writable : x.Writable
    · obtain ⟨whole, fraction, written⟩ := writable.exists_numeral
      exact ⟨(whole, fraction), fun _ => written⟩
    · exact ⟨([], []), fun held => absurd held writable⟩
  exact ⟨{
    whole := fun x => (literal x).choose.1
    fraction := fun x => (literal x).choose.2
    spelt := fun x writable => ((literal x).choose_spec writable).1
    value := fun x writable => ((literal x).choose_spec writable).2 }⟩

end Formulary
