import Formulary.Number.Notation
import Formulary.Proofs.Numerals
import Mathlib.Tactic.FieldSimp
import Mathlib.Tactic.Ring
import Mathlib.Tactic.Linarith
import Mathlib.Algebra.Order.Field.Rat

/-! Numbers told by their texts. The shortest decimal of a number is among the reals that round to it, no
real rounds to two numbers, and the value of a decimal can be read off its text. -/
namespace Formulary
namespace Binary64

/-! Neighbouring numbers. -/

theorem bitLength_mono {u v : Nat} (le : u ≤ v) : bitLength u ≤ bitLength v :=
  bitLength_le (Nat.lt_of_le_of_lt le (lt_twoPow_bitLength v))

theorem twoPow_le {n : Nat} (positive : 0 < n) : twoPow (bitLength n - 1) ≤ n := by
  rw [bitLength, if_neg (by omega)]
  exact Nat.log2_self_le (by omega)

theorem spacing_dvd_spacing {u v : Nat} (le : u ≤ v) : spacing u ∣ spacing v := by
  have length := bitLength_mono le
  exact Nat.pow_dvd_pow 2 (by omega)

theorem spacing_pos (n : Nat) : 0 < spacing n := twoPow_pos _

theorem add_le_of_dvd {u v s : Nat} (less : u < v) (left : s ∣ u) (right : s ∣ v) : u + s ≤ v := by
  obtain ⟨j, rfl⟩ := left
  obtain ⟨k, rfl⟩ := right
  have count : j + 1 ≤ k := Nat.lt_of_mul_lt_mul_left less
  calc s * j + s = s * (j + 1) := by rw [Nat.mul_succ]
    _ ≤ s * k := Nat.mul_le_mul_left s count

/-- The next number is a step further, as the step is below it. -/
theorem add_spacing_le {u v : Nat} (less : u < v) (left : spacing u ∣ u) (right : spacing v ∣ v) :
    u + spacing u ≤ v :=
  add_le_of_dvd less left (Nat.dvd_trans (spacing_dvd_spacing (Nat.le_of_lt less)) right)

/-- Twice the distance to the number before, in quarters of a unit. -/
def below (units : Nat) : Nat :=
  if units = twoPow 52 * spacing units && decide (1 < spacing units) then spacing units
  else 2 * spacing units

theorem interval_low (units : Nat) : (interval units).low = 4 * units - below units := rfl

/-- Where steps get wider the number has its full length. -/
theorem full_length {n : Nat} (wide : 1 < spacing n) :
    twoPow (bitLength n - 1) = twoPow 52 * spacing n := by
  have length : 53 < bitLength n := by
    by_contra short
    have step : bitLength n - 53 = 0 := by omega
    rw [spacing, step] at wide
    exact absurd wide (by decide)
  rw [spacing, twoPow_mul]
  congr 1
  omega

theorem twoPow_le_twoPow {m n : Nat} (le : m ≤ n) : twoPow m ≤ twoPow n := Nat.pow_le_pow_right (by decide) le

theorem double_twoPow (n : Nat) : 2 * twoPow n = twoPow (n + 1) := by
  rw [Nat.add_comm, ← twoPow_mul]
  rfl

/-- The number before is a step away, but half a step where a power of two makes the steps wider. -/
theorem below_spec {u v : Nat} (less : u < v) (left : spacing u ∣ u) (right : spacing v ∣ v) :
    4 * u + 2 * below v ≤ 4 * v := by
  have next := add_spacing_le less left right
  have long := twoPow_le (show 0 < v by omega)
  have short := lt_twoPow_bitLength u
  unfold below
  split
  · by_cases near : spacing v ≤ 2 * spacing u
    · omega
    have shorter : bitLength u + 2 ≤ bitLength v := by
      by_contra same
      refine near ?_
      rw [spacing, spacing, double_twoPow]
      exact twoPow_le_twoPow (by omega)
    have half : 2 * twoPow (bitLength u) ≤ twoPow (bitLength v - 1) := by
      rw [double_twoPow]
      exact twoPow_le_twoPow (by omega)
    have within := Nat.le_of_dvd (by omega) right
    omega
  · next other =>
    by_cases same : spacing v ≤ spacing u
    · omega
    have shorter : bitLength u + 1 ≤ bitLength v := by
      by_contra length
      exact same (twoPow_le_twoPow (by omega))
    have wide : 1 < spacing v := by
      have positive := spacing_pos u
      omega
    have room : twoPow (bitLength u) ≤ twoPow (bitLength v - 1) := twoPow_le_twoPow (by omega)
    have power := full_length wide
    have above : twoPow 52 * spacing v < v := by
      rcases Nat.lt_or_eq_of_le long with above | exact
      · omega
      · exact absurd (by simp [← power, exact, wide]) other
    have step := add_le_of_dvd above (Nat.dvd_mul_left _ _) right
    omega

/-! Intervals. -/

/-- The reals of an interval, in quarters of a unit. -/
structure Interval.Contains (i : Interval) (q : ℚ) : Prop where
  low : i.low ≤ q
  high : q ≤ i.high
  inner : i.closed = false → i.low < q ∧ q < i.high

theorem low_pos {u : Nat} (positive : 0 < u) (fits : spacing u ∣ u) : 0 < (interval u).low := by
  have within := Nat.le_of_dvd positive fits
  rw [interval_low, below]
  split <;> omega

theorem high_le_low {u v : Nat} (less : u < v) (left : spacing u ∣ u) (right : spacing v ∣ v) :
    (interval u).high ≤ (interval v).low := by
  have next := add_spacing_le less left right
  have before := below_spec less left right
  have high : (interval u).high = 4 * u + 2 * spacing u := rfl
  rw [high, interval_low]
  omega

theorem closed_eq {n j : Nat} (product : n = spacing n * j) : (interval n).closed = (j % 2 == 0) := by
  have quotient : n / spacing n = j := Nat.div_eq_of_eq_mul_right (spacing_pos n) product
  exact congrArg (· % 2 == 0) quotient

/-- Where two intervals meet, one of the numbers is odd in its last digit. -/
theorem not_both_closed {u v : Nat} (less : u < v) (left : spacing u ∣ u) (right : spacing v ∣ v)
    (meet : (interval u).high = (interval v).low) :
    (interval u).closed = false ∨ (interval v).closed = false := by
  have next := add_spacing_le less left right
  have before := below_spec less left right
  have high : (interval u).high = 4 * u + 2 * spacing u := rfl
  rw [high, interval_low] at meet
  have step : v = u + spacing u := by omega
  have width : below v = 2 * spacing u := by omega
  obtain ⟨j, product⟩ := id left
  obtain ⟨k, product'⟩ := id right
  rw [closed_eq product, closed_eq product']
  unfold below at width
  split at width
  · next power =>
    -- Below a power of two all digits are ones.
    have exact : v = twoPow 52 * spacing v := of_decide_eq_true (Bool.and_eq_true_iff.mp power).1
    have count : spacing u * (j + 1) = spacing u * (2 * twoPow 52) := by
      rw [Nat.mul_succ, ← product, ← step, exact, width]
      ring
    have ones := Nat.eq_of_mul_eq_mul_left (spacing_pos u) count
    have odd : j % 2 = 1 := by omega
    simp [odd]
  · have same : spacing v = spacing u := by omega
    have count : spacing u * k = spacing u * (j + 1) := by
      rw [Nat.mul_succ, ← product, ← step, ← same]
      exact product'.symm
    have successive := Nat.eq_of_mul_eq_mul_left (spacing_pos u) count
    rcases Nat.mod_two_eq_zero_or_one j with even | odd
    · right
      simp [successive, Nat.add_mod, even]
    · left
      simp [odd]

/-- No real rounds to two numbers. -/
theorem intervals_apart {u v : Nat} (less : u < v) (left : spacing u ∣ u) (right : spacing v ∣ v)
    (first : (interval u).Contains q) (second : (interval v).Contains q) : False := by
  have apart : ((interval u).high : ℚ) ≤ (interval v).low := by exact_mod_cast high_le_low less left right
  have meet : ((interval u).high : ℚ) = (interval v).low :=
    le_antisymm apart (second.low.trans first.high)
  rcases not_both_closed less left right (by exact_mod_cast meet) with opened | opened
  · have inside := first.inner opened
    linarith [second.low]
  · have inside := second.inner opened
    linarith [first.high]

/-! The search for the shortest decimal. -/

end Binary64

def Decimal.value (d : Decimal) : ℚ := d.digits * 10 ^ d.exponent

namespace Binary64

theorem cast_tenPow (n : Nat) : (tenPow n : ℚ) = 10 ^ n := by simp [tenPow]

theorem zpow_mul_tenPow (e : ℤ) : (10 : ℚ) ^ e * tenPow (-e).toNat = tenPow e.toNat := by
  rw [cast_tenPow, cast_tenPow, ← zpow_natCast, ← zpow_natCast, ← zpow_add₀ (by norm_num)]
  congr 1
  omega

/-- A point of a grid lies inside, as it is checked on whole numbers. -/
theorem contains_of_holds {i : Interval} {d : Decimal} (inside : i.holds (tenPow (-d.exponent).toNat)
    (d.digits * (tenPow d.exponent.toNat * (4 * one))) = true) : i.Contains (4 * one * d.value) := by
  have scale : (0 : ℚ) < tenPow (-d.exponent).toNat := by exact_mod_cast tenPow_pos _
  have point : ((d.digits * (tenPow d.exponent.toNat * (4 * one)) : ℕ) : ℚ) =
      4 * one * d.value * tenPow (-d.exponent).toNat := by
    push_cast
    rw [← zpow_mul_tenPow d.exponent, Decimal.value]
    ring
  generalize d.digits * (tenPow d.exponent.toNat * (4 * one)) = p at inside point
  generalize tenPow (-d.exponent).toNat = s at inside point scale
  unfold Interval.holds at inside
  have le_iff (k : ℕ) : k * s ≤ p ↔ (k : ℚ) ≤ 4 * one * d.value := by
    have cast : ((k * s : ℕ) : ℚ) ≤ p ↔ k * s ≤ p := Nat.cast_le
    rw [← cast, point, Nat.cast_mul]
    exact mul_le_mul_iff_left₀ scale
  have ge_iff (k : ℕ) : p ≤ k * s ↔ 4 * one * d.value ≤ (k : ℚ) := by
    have cast : (p : ℚ) ≤ (k * s : ℕ) ↔ p ≤ k * s := Nat.cast_le
    rw [← cast, point, Nat.cast_mul]
    exact mul_le_mul_iff_left₀ scale
  split at inside
  · next closed =>
    simp only [Bool.and_eq_true, decide_eq_true_eq, le_iff, ge_iff] at inside
    exact ⟨inside.1, inside.2, fun opened => absurd (closed.symm.trans opened) (by decide)⟩
  · simp only [Bool.and_eq_true, decide_eq_true_eq, ← not_le, le_iff, ge_iff] at inside
    have low := not_le.mp inside.1
    have high := not_le.mp inside.2
    exact ⟨low.le, high.le, fun _ => ⟨low, high⟩⟩

theorem gridPoint?_contains {i : Interval} {e : ℤ} {d : Decimal} (found : i.gridPoint? e = some d) :
    i.Contains (4 * one * d.value) := by
  apply contains_of_holds
  unfold Interval.gridPoint? at found
  extract_lets scale cell middle floor inside below above nearer at found
  split at found
  · next first =>
    cases found
    exact first
  split at found
  · next second =>
    cases found
    exact second
  split at found
  · next third =>
    cases found
    exact third
  · cases found

/-- A grid whose cells are narrower than the upper half of the interval has a point inside. -/
theorem gridPoint?_isSome {units : Nat} {e : ℤ}
    (narrow : tenPow e.toNat * (4 * one) < 2 * spacing units * tenPow (-e).toNat) :
    ((interval units).gridPoint? e).isSome = true := by
  unfold Interval.gridPoint?
  extract_lets scale cell middle floor inside below above nearer
  have next : inside (floor + 1) = true := by
    have positive : 0 < cell := Nat.mul_pos (tenPow_pos _) (Nat.mul_pos (by decide) (twoPow_pos _))
    have under : floor * cell ≤ middle := Nat.div_mul_le_self middle cell
    have past : middle < floor * cell + cell := Nat.lt_div_mul_add positive
    have narrow : cell < 2 * spacing units * scale := narrow
    have low : (interval units).low * scale ≤ middle := Nat.mul_le_mul_right scale (Nat.sub_le _ _)
    have high : (interval units).high * scale = middle + 2 * spacing units * scale :=
      Nat.add_mul (4 * units) (2 * spacing units) scale
    have step : (floor + 1) * cell = floor * cell + cell := Nat.succ_mul floor cell
    have within : (interval units).low * scale < (floor + 1) * cell ∧
        (floor + 1) * cell < (interval units).high * scale := by omega
    simp only [inside, Interval.holds]
    split <;> simp [within, within.1.le, within.2.le]
  split
  · rfl
  split
  · rfl
  -- `split` has used `next` for the condition that is left.
  · rfl

theorem tenPow_mul (m n : Nat) : tenPow m * tenPow n = tenPow (m + n) := (Nat.pow_add 10 m n).symm

theorem twoPow_pow (m n : Nat) : twoPow m ^ n = twoPow (m * n) := (Nat.pow_mul 2 m n).symm

theorem tenPow_pow (m n : Nat) : tenPow m ^ n = tenPow (m * n) := (Nat.pow_mul 10 m n).symm

theorem tenPow_le_tenPow {m n : Nat} (le : m ≤ n) : tenPow m ≤ tenPow n := Nat.pow_le_pow_right (by decide) le

/-- The logarithm of two to base ten lies below 30103 / 100000, but not by much. -/
theorem log_bounds : twoPow 100000 ≤ tenPow 30103 ∧ tenPow 30103 ≤ twoPow 100001 := by decide +kernel

theorem twoPow_le_tenPow {l j : Nat} (enough : 30103 * l ≤ 100000 * j) : twoPow l ≤ tenPow j := by
  have power : twoPow l ^ 100000 ≤ tenPow j ^ 100000 := calc
    twoPow l ^ 100000 = twoPow (l * 100000) := twoPow_pow l 100000
    _ = twoPow (100000 * l) := congrArg twoPow (Nat.mul_comm l 100000)
    _ = twoPow 100000 ^ l := (twoPow_pow 100000 l).symm
    _ ≤ tenPow 30103 ^ l := Nat.pow_le_pow_left log_bounds.1 l
    _ = tenPow (30103 * l) := tenPow_pow 30103 l
    _ ≤ tenPow (j * 100000) := tenPow_le_tenPow (by omega)
    _ = tenPow j ^ 100000 := (tenPow_pow j 100000).symm
  exact le_of_pow_le_pow_left₀ (by decide) (Nat.zero_le _) power

theorem tenPow_le_twoPow {k l : Nat} (enough : 100000 * k ≤ 30103 * l) (short : l ≤ 100000) :
    tenPow k ≤ twoPow (l + 1) := by
  have power : tenPow k ^ 100000 ≤ twoPow (l + 1) ^ 100000 := calc
    tenPow k ^ 100000 = tenPow (k * 100000) := tenPow_pow k 100000
    _ ≤ tenPow (30103 * l) := tenPow_le_tenPow (by omega)
    _ = tenPow 30103 ^ l := (tenPow_pow 30103 l).symm
    _ ≤ twoPow 100001 ^ l := Nat.pow_le_pow_left log_bounds.2 l
    _ = twoPow (100001 * l) := twoPow_pow 100001 l
    _ ≤ twoPow ((l + 1) * 100000) := twoPow_le_twoPow (by omega)
    _ = twoPow (l + 1) ^ 100000 := (twoPow_pow (l + 1) 100000).symm
  exact le_of_pow_le_pow_left₀ (by decide) (Nat.zero_le _) power

theorem bitLength_of_bounded {units : Nat} (small : units < bound) : bitLength units ≤ 2098 := by
  rw [bound, one, twoPow_mul] at small
  exact bitLength_le small

theorem four_mul_one : 4 * one = twoPow 1076 := by
  have four : twoPow 2 = 4 := rfl
  rw [← four, one, twoPow_mul]

/-- The last grid of the search is narrow enough. -/
theorem last_grid_narrow {units : Nat} (small : units < bound) {e : ℤ}
    (last : e = ((bitLength units : ℤ) - 1074) * 30103 / 100000 - 21) :
    tenPow e.toNat * (4 * one) < 2 * spacing units * tenPow (-e).toNat := by
  have length := bitLength_of_bounded small
  have digits : twoPow 55 < tenPow 21 := by decide
  rw [four_mul_one, spacing, double_twoPow]
  rcases Nat.le_total 1074 (bitLength units) with large | little
  · obtain ⟨l, long⟩ := Nat.exists_eq_add_of_le large
    obtain ⟨k, whole⟩ : ∃ k, k = 30103 * l / 100000 := ⟨_, rfl⟩
    have log := tenPow_le_twoPow (show 100000 * k ≤ 30103 * l by omega) (by omega)
    have split : e.toNat + 21 = k + (-e).toNat := by omega
    refine Nat.lt_of_mul_lt_mul_right (a := tenPow 21) ?_
    calc tenPow e.toNat * twoPow 1076 * tenPow 21
        = tenPow (e.toNat + 21) * twoPow 1076 := by rw [← tenPow_mul]; ring
      _ = tenPow k * twoPow 1076 * tenPow (-e).toNat := by rw [split, ← tenPow_mul]; ring
      _ ≤ twoPow (l + 1) * twoPow 1076 * tenPow (-e).toNat := by gcongr
      _ = twoPow (bitLength units - 53 + 1) * twoPow 55 * tenPow (-e).toNat := by
        rw [twoPow_mul, twoPow_mul]
        congr 2
        omega
      _ < twoPow (bitLength units - 53 + 1) * tenPow 21 * tenPow (-e).toNat :=
        Nat.mul_lt_mul_of_pos_right (Nat.mul_lt_mul_of_pos_left digits (twoPow_pos _)) (tenPow_pos _)
      _ = twoPow (bitLength units - 53 + 1) * tenPow (-e).toNat * tenPow 21 := by ring
  · obtain ⟨l, long⟩ := Nat.exists_eq_add_of_le little
    obtain ⟨j, whole⟩ : ∃ j, (-e).toNat = j + 21 := ⟨(-e).toNat - 21, by omega⟩
    have log := twoPow_le_tenPow (show 30103 * l ≤ 100000 * j by omega)
    have none : e.toNat = 0 := by omega
    have short : twoPow 1022 ≤ twoPow (bitLength units - 53 + 1) * twoPow l := by
      rw [twoPow_mul]
      exact twoPow_le_twoPow (by omega)
    have unit : tenPow 0 = 1 := rfl
    rw [none, whole, unit, Nat.one_mul]
    have room : twoPow 1076 ≤ twoPow 1022 * twoPow 55 := by
      rw [twoPow_mul]
      exact twoPow_le_twoPow (by decide)
    calc twoPow 1076
      _ ≤ twoPow 1022 * twoPow 55 := room
      _ < twoPow 1022 * tenPow 21 := Nat.mul_lt_mul_of_pos_left digits (twoPow_pos _)
      _ ≤ twoPow (bitLength units - 53 + 1) * twoPow l * tenPow 21 := Nat.mul_le_mul_right _ short
      _ ≤ twoPow (bitLength units - 53 + 1) * tenPow j * tenPow 21 :=
        Nat.mul_le_mul_right _ (Nat.mul_le_mul_left _ log)
      _ = twoPow (bitLength units - 53 + 1) * tenPow (j + 21) := by rw [Nat.mul_assoc, tenPow_mul]

theorem shortest_contains {units : Nat} (small : units < bound) :
    (interval units).Contains (4 * one * (shortest units).value) := by
  unfold shortest
  extract_lets i top
  cases search : (List.range 24).findSome? fun (n : Nat) => i.gridPoint? (top - n) with
  | some d =>
    obtain ⟨n, -, found⟩ := List.exists_of_findSome?_eq_some search
    exact gridPoint?_contains found
  | none =>
    have last : i.gridPoint? (top - 23) = none := List.findSome?_eq_none_iff.mp search 23 (by decide)
    have found := gridPoint?_isSome (last_grid_narrow small (e := top - 23) (by omega))
    rw [show (interval units).gridPoint? (top - 23) = none from last] at found
    cases found

end Binary64

/-! The value of a text. -/

/-- Digits as numbers are written with, of no other script. -/
def Digits (cs : List Char) : Prop := ∀ c ∈ cs, c.isDigit = true

namespace Digits

variable {cs ds : List Char}

theorem toDigits (n : Nat) : Digits (Nat.toDigits 10 n) := fun _ member =>
  Nat.isDigit_of_mem_toDigits (by decide) (by decide) member

theorem zeros (n : Nat) : Digits (List.replicate n '0') := by
  intro c member
  rw [(List.mem_replicate.mp member).2]
  rfl

theorem zero : Digits ['0'] := zeros 1

theorem append (left : Digits cs) (right : Digits ds) : Digits (cs ++ ds) :=
  List.forall_mem_append.mpr ⟨left, right⟩

theorem take (digits : Digits cs) (n : Nat) : Digits (cs.take n) := fun c member =>
  digits c (List.mem_of_mem_take member)

theorem drop (digits : Digits cs) (n : Nat) : Digits (cs.drop n) := fun c member =>
  digits c (List.mem_of_mem_drop member)

theorem ne {d : Char} (digits : Digits cs) (other : d.isDigit = false) : ∀ c ∈ cs, (c != d) = true := by
  intro c member
  refine bne_iff_ne.mpr ?_
  rintro rfl
  cases (digits c member).symm.trans other

theorem value_zeros (n : Nat) (cs : List Char) :
    Nat.ofDigitChars 10 (List.replicate n '0' ++ cs) 0 = Nat.ofDigitChars 10 cs 0 := by
  rw [Nat.ofDigitChars_append, Nat.ofDigitChars_replicate_zero, Nat.mul_zero]

theorem value_shift (cs : List Char) (n : Nat) :
    Nat.ofDigitChars 10 (cs ++ List.replicate n '0') 0 = 10 ^ n * Nat.ofDigitChars 10 cs 0 := by
  rw [Nat.ofDigitChars_append, Nat.ofDigitChars_replicate_zero]

end Digits

section
variable {whole fraction mantissa tail digits : List Char}

/-- The value of digits with a point in between, if any. -/
def mantissaValue (cs : List Char) : ℚ :=
  Nat.ofDigitChars 10 (cs.filter (· != '.')) 0 / 10 ^ ((cs.dropWhile (· != '.')).drop 1).length

theorem mantissaValue_whole (plain : Digits whole) : mantissaValue whole = Nat.ofDigitChars 10 whole 0 := by
  have none : ∀ c ∈ ([] : List Char).head?, (c != '.') = false := nofun
  have behind := dropWhile_append_stop (plain.ne rfl) none
  rw [List.append_nil] at behind
  rw [mantissaValue, List.filter_eq_self.mpr (plain.ne rfl), behind, List.drop_nil, List.length_nil, pow_zero,
    div_one]

theorem mantissaValue_point (left : Digits whole) (right : Digits fraction) :
    mantissaValue (whole ++ '.' :: fraction) =
      Nat.ofDigitChars 10 (whole ++ fraction) 0 / 10 ^ fraction.length := by
  have point : ∀ c ∈ ('.' :: fraction).head?, (c != '.') = false := by simp
  have digits : (whole ++ '.' :: fraction).filter (· != '.') = whole ++ fraction := by
    rw [List.filter_append, List.filter_eq_self.mpr (left.ne rfl), List.filter_cons_of_neg (by decide),
      List.filter_eq_self.mpr (right.ne rfl)]
  rw [mantissaValue, digits, dropWhile_append_stop (left.ne rfl) point, List.drop_one, List.tail_cons]

def exponentValue : List Char → ℤ
  | 'e' :: '-' :: digits => -(Nat.ofDigitChars 10 digits 0 : ℤ)
  | 'e' :: '+' :: digits => Nat.ofDigitChars 10 digits 0
  | _ => 0

/-- The value that a text in decimal notation writes. -/
def textValue (cs : List Char) : ℚ :=
  mantissaValue (cs.takeWhile (· != 'e')) * 10 ^ exponentValue (cs.dropWhile (· != 'e'))

theorem textValue_append (plain : ∀ c ∈ mantissa, (c != 'e') = true) (behind : ∀ c ∈ tail.head?, (c != 'e') = false) :
    textValue (mantissa ++ tail) = mantissaValue mantissa * 10 ^ exponentValue tail := by
  rw [textValue, takeWhile_append_stop plain behind, dropWhile_append_stop plain behind]

theorem point_plain (left : Digits whole) (right : Digits fraction) :
    ∀ c ∈ whole ++ '.' :: fraction, (c != 'e') = true :=
  List.forall_mem_append.mpr ⟨left.ne rfl, List.forall_mem_cons.mpr ⟨by decide, right.ne rfl⟩⟩

theorem textValue_point (left : Digits whole) (right : Digits fraction) :
    textValue (whole ++ '.' :: fraction) =
      Nat.ofDigitChars 10 (whole ++ fraction) 0 / 10 ^ fraction.length := by
  have none : exponentValue [] = 0 := rfl
  have value := textValue_append (point_plain left right)
    (show ∀ c ∈ ([] : List Char).head?, (c != 'e') = false from nofun)
  rwa [List.append_nil, none, zpow_zero, mul_one, mantissaValue_point left right] at value

theorem positionalText_value (plain : Digits digits) (exponent : ℤ) :
    textValue (positionalText digits exponent).toList = Nat.ofDigitChars 10 digits 0 * 10 ^ exponent := by
  unfold positionalText
  extract_lets point
  split
  · next positive =>
    obtain ⟨n, rfl⟩ := Int.eq_ofNat_of_zero_le positive
    have text : (String.ofList digits ++ zeros (n : ℤ).toNat ++ ".0").toList =
        (digits ++ List.replicate n '0') ++ '.' :: ['0'] := by simp [zeros]
    have shift := Digits.value_shift digits (n + 1)
    rw [List.replicate_succ', ← List.append_assoc] at shift
    rw [text, textValue_point (plain.append (.zeros n)) .zero, shift, Nat.cast_mul, Nat.cast_pow,
      zpow_natCast, List.length_singleton, pow_succ]
    push_cast
    ring
  split
  · next negative inside =>
    obtain ⟨n, short⟩ : ∃ n : ℕ, exponent = -(n : ℤ) := ⟨(-exponent).toNat, by omega⟩
    have text : (String.ofList (digits.take point.toNat) ++ "." ++ String.ofList (digits.drop point.toNat)).toList =
        digits.take point.toNat ++ '.' :: digits.drop point.toNat := by simp
    have places : (digits.drop point.toNat).length = n := by
      rw [List.length_drop]
      omega
    rw [text, textValue_point (plain.take _) (plain.drop _), List.take_append_drop, places, short, zpow_neg,
      zpow_natCast, div_eq_mul_inv]
  · next negative outside =>
    obtain ⟨n, short⟩ : ∃ n : ℕ, exponent = -(n : ℤ) := ⟨(-exponent).toNat, by omega⟩
    have text : ("0." ++ zeros (-point).toNat ++ String.ofList digits).toList =
        ['0'] ++ '.' :: (List.replicate (-point).toNat '0' ++ digits) := by simp [zeros]
    have places : (List.replicate (-point).toNat '0' ++ digits).length = n := by
      rw [List.length_append, List.length_replicate]
      omega
    have leading : ['0'] ++ (List.replicate (-point).toNat '0' ++ digits) =
        List.replicate ((-point).toNat + 1) '0' ++ digits := rfl
    rw [text, textValue_point .zero ((Digits.zeros _).append plain), leading, Digits.value_zeros, places, short,
      zpow_neg, zpow_natCast, div_eq_mul_inv]

/-- The exponent part of a text. -/
theorem exponent_text (first : ℤ) (n : ℕ) : ∃ tail, exponentValue ('e' :: tail) = first ∧
    ((if first < 0 then "e-" else "e+") ++ zeros n ++ toString first.natAbs).toList = 'e' :: tail := by
  have value : Nat.ofDigitChars 10 (List.replicate n '0' ++ Nat.toDigits 10 first.natAbs) 0 = first.natAbs := by
    rw [Digits.value_zeros, Nat.ofDigitChars_ten_toDigits]
  split
  · refine ⟨'-' :: (List.replicate n '0' ++ Nat.toDigits 10 first.natAbs), ?_, by simp [zeros]⟩
    rw [exponentValue, value]
    omega
  · refine ⟨'+' :: (List.replicate n '0' ++ Nat.toDigits 10 first.natAbs), ?_, by simp [zeros]⟩
    rw [exponentValue, value]
    omega

/-- The digits of a text with an exponent part, a point behind the first of them. -/
theorem mantissa_text (plain : Digits digits) : ∃ mantissa,
    (String.ofList (digits.take 1) ++
        if (digits.drop 1).isEmpty then "" else "." ++ String.ofList (digits.drop 1)).toList = mantissa ∧
      (∀ c ∈ mantissa, (c != 'e') = true) ∧
      mantissaValue mantissa = Nat.ofDigitChars 10 digits 0 / 10 ^ (digits.drop 1).length := by
  split
  · next alone =>
    have none : digits.drop 1 = [] := List.isEmpty_iff.mp alone
    have all : digits.take 1 = digits := by
      simpa [none] using List.take_append_drop 1 digits
    refine ⟨digits.take 1, by simp, (plain.take 1).ne rfl, ?_⟩
    rw [all, mantissaValue_whole plain, none, List.length_nil, pow_zero, div_one]
  · refine ⟨digits.take 1 ++ '.' :: digits.drop 1, by simp, point_plain (plain.take 1) (plain.drop 1), ?_⟩
    rw [mantissaValue_point (plain.take 1) (plain.drop 1), List.take_append_drop]

theorem scientificText_value (plain : Digits digits) (l : NumberLayout) (first : ℤ) :
    textValue (scientificText l digits first).toList =
      Nat.ofDigitChars 10 digits 0 / 10 ^ (digits.drop 1).length * 10 ^ first := by
  obtain ⟨mantissa, text, apart, value⟩ := mantissa_text plain
  obtain ⟨tail, exponent, part⟩ := exponent_text first (l.exponentDigits - (toString first.natAbs).length)
  have split : (scientificText l digits first).toList = mantissa ++ 'e' :: tail := by
    rw [← text, ← part, ← String.toList_append, ← String.append_assoc, ← String.append_assoc]
    rfl
  rw [split, textValue_append apart (by simp), value, exponent]

end

/-- The value of a decimal can be read off its text. -/
theorem Decimal.text_value (l : NumberLayout) (d : Decimal) : textValue (d.text l).toList = d.value := by
  have digits : (toString d.digits).toList = Nat.toDigits 10 d.digits := by
    rw [Nat.toString_eq_ofList_toDigits, String.toList_ofList]
  have plain := Digits.toDigits d.digits
  unfold Decimal.text
  dsimp only
  rw [digits]
  split
  · rw [positionalText_value plain, Nat.ofDigitChars_ten_toDigits]
    rfl
  · have some : 0 < (Nat.toDigits 10 d.digits).length := Nat.length_toDigits_pos
    have scale : d.exponent + (Nat.toDigits 10 d.digits).length - 1 =
        d.exponent + (((Nat.toDigits 10 d.digits).drop 1).length : ℕ) := by
      rw [List.length_drop]
      omega
    rw [scientificText_value plain, Nat.ofDigitChars_ten_toDigits, scale, zpow_add₀ (by norm_num), zpow_natCast,
      Decimal.value]
    field_simp

/-- A text of digits has a point or an exponent part. -/
theorem Decimal.text_marked (l : NumberLayout) (d : Decimal) :
    '.' ∈ (d.text l).toList ∨ 'e' ∈ (d.text l).toList := by
  unfold Decimal.text
  extract_lets digits first
  split
  · left
    unfold positionalText
    extract_lets point
    split
    · simp
    split <;> simp
  · right
    unfold scientificText
    extract_lets fraction size
    by_cases negative : first < 0
    · simp [negative]
    · simp [negative]

namespace Binary64

theorem four_mul_one_pos : (0 : ℚ) < 4 * one := by
  have positive : 0 < one := twoPow_pos 1074
  exact_mod_cast Nat.mul_pos (by decide) positive

/-- Numbers told by the values of their texts. -/
theorem units_inj {u v : Nat} (smallU : u < bound) (smallV : v < bound) (fitsU : spacing u ∣ u)
    (fitsV : spacing v ∣ v) (same : (shortest u).value = (shortest v).value) : u = v := by
  have first := shortest_contains smallU
  have second := shortest_contains smallV
  rw [← same] at second
  rcases Nat.lt_trichotomy u v with less | equal | greater
  · exact (intervals_apart less fitsU fitsV first second).elim
  · exact equal
  · exact (intervals_apart greater fitsV fitsU second first).elim

theorem shortest_pos {units : Nat} (small : units < bound) (fits : spacing units ∣ units) (positive : 0 < units) :
    0 < (shortest units).value := by
  have low : (0 : ℚ) < (interval units).low := by exact_mod_cast low_pos positive fits
  have above := lt_of_lt_of_le low (shortest_contains small).low
  exact pos_of_mul_pos_right above four_mul_one_pos.le

theorem finite_text {units : Nat} (positive : 0 < units) :
    text (.finite false units) = (shortest units).text layout := by
  have unsigned : signText false = "" := rfl
  rw [text, if_neg (by omega), unsigned, String.empty_append]

theorem zero_value : textValue (text (.finite false 0)).toList = 0 := by
  have digits : (text (.finite false 0)).toList = ['0'] ++ '.' :: ['0'] := by decide
  have value : Nat.ofDigitChars 10 (['0'] ++ ['0']) 0 = 0 := by decide
  rw [digits, textValue_point .zero .zero, value, Nat.cast_zero, zero_div]

theorem finite_marked (units : Nat) :
    '.' ∈ (text (.finite false units)).toList ∨ 'e' ∈ (text (.finite false units)).toList := by
  rcases Nat.eq_zero_or_pos units with rfl | positive
  · exact .inl (by decide)
  · rw [finite_text positive]
    exact Decimal.text_marked layout (shortest units)

theorem finite_text_inj {u v : Nat} (smallU : u < bound) (smallV : v < bound) (fitsU : spacing u ∣ u)
    (fitsV : spacing v ∣ v) (same : text (.finite false u) = text (.finite false v)) : u = v := by
  have value := congrArg (textValue ·.toList) same
  rcases Nat.eq_zero_or_pos u with rfl | posU <;> rcases Nat.eq_zero_or_pos v with rfl | posV
  · rfl
  · rw [zero_value, finite_text posV, Decimal.text_value] at value
    exact absurd value (shortest_pos smallV fitsV posV).ne
  · rw [zero_value, finite_text posU, Decimal.text_value] at value
    exact absurd value (shortest_pos smallU fitsU posU).ne'
  · rw [finite_text posU, finite_text posV, Decimal.text_value, Decimal.text_value] at value
    exact units_inj smallU smallV fitsU fitsV value

/-- Two numbers without a sign have two texts. -/
theorem text_inj {x y : Binary64} (left : x.Writable) (right : y.Writable) (same : x.text = y.text) : x = y := by
  have named : ¬('.' ∈ (text (.infinite false)).toList ∨ 'e' ∈ (text (.infinite false)).toList) := by decide
  cases left with
  | finite smallU fitsU => cases right with
    | finite smallV fitsV => rw [finite_text_inj smallU smallV fitsU fitsV same]
    | infinite => exact absurd (same ▸ finite_marked _) named
  | infinite => cases right with
    | finite smallV fitsV => exact absurd (same ▸ finite_marked _) named
    | infinite => rfl

end Binary64
end Formulary
