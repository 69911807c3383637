import Formulary.Text.Octets
import Mathlib.Tactic.IntervalCases

/-! Texts and octets. The decoder reads back what a text is encoded as, and nothing else is read at all:
the bounds of the second octets leave each character one form. -/
namespace Formulary

/-! Encoding. -/

def charOctets (c : Char) : List Nat := (String.utf8EncodeChar c).map UInt8.toNat

def octetsOf (text : String) : List Nat := text.toUTF8.data.toList.map UInt8.toNat

theorem octetsOf_ofList (cs : List Char) : octetsOf (String.ofList cs) = cs.flatMap charOctets := by
  have octets : (String.ofList cs).toUTF8.data.toList = cs.flatMap String.utf8EncodeChar := by
    rw [String.toUTF8_eq_toByteArray]
    exact List.toList_data_toByteArray
  rw [octetsOf, octets, List.map_flatMap]
  rfl

/-- Six bits of a code point at a time, with a lead that tells how many octets there are. -/
theorem charOctets_eq (c : Char) : charOctets c =
    if c.toNat < 0x80 then [c.toNat]
    else if c.toNat < 0x800 then [0xc0 + c.toNat / 64, 0x80 + c.toNat % 64]
    else if c.toNat < 0x10000 then
      [0xe0 + c.toNat / 4096, 0x80 + c.toNat / 64 % 64, 0x80 + c.toNat % 64]
    else [0xf0 + c.toNat / 262144, 0x80 + c.toNat / 4096 % 64, 0x80 + c.toNat / 64 % 64,
      0x80 + c.toNat % 64] := by
  have bound : c.toNat < 0x110000 := by
    rcases c.valid with low | ⟨-, high⟩
    · exact Nat.lt_trans low (by decide)
    · exact high
  have value : c.val.toNat = c.toNat := rfl
  simp only [charOctets, String.utf8EncodeChar, value]
  split_ifs <;> simp <;> omega

/-! Characters that have begun. -/

/-- The octets that are owed to a character that has begun, and the code point that they make it. -/
inductive Finishes : Partial → List Nat → Nat → Prop where
  | last : least ≤ octet → octet ≤ greatest → owed ≤ 1 → code = 64 * value + (octet - 0x80) →
      Finishes ⟨first, start, owed, least, greatest, value⟩ [octet] code
  | next : least ≤ octet → octet ≤ greatest → 1 < owed →
      Finishes ⟨first, start, owed - 1, 0x80, 0xbf, 64 * value + (octet - 0x80)⟩ octets code →
      Finishes ⟨first, start, owed, least, greatest, value⟩ (octet :: octets) code

section

variable {p : Partial} {octets rest : List Nat} {offset : Nat} {done text : List Char}

theorem decodeFrom_finishes (finishes : Finishes p octets code) :
    decodeFrom offset (some p) done (octets ++ rest) =
      decodeFrom (offset + octets.length) none (Char.ofNat code :: done) rest := by
  induction finishes generalizing offset with
  | last least greatest owed value => simp [decodeFrom, least, greatest, owed, value]
  | next least greatest owed _ ih =>
    simp only [List.cons_append, decodeFrom, least, greatest, Nat.not_le.mpr owed, decide_true,
      Bool.and_self, if_true, if_false, ih, List.length_cons]
    rw [Nat.add_assoc, Nat.add_comm 1]

/-- Where a character has begun, the octets owed to it must follow. -/
theorem finishes_of_decodeFrom (ok : decodeFrom offset (some p) done octets = .ok text) :
    ∃ tail rest code, octets = tail ++ rest ∧ Finishes p tail code := by
  induction octets generalizing offset p with
  | nil => cases ok
  | cons octet octets ih =>
    obtain ⟨first, start, owed, least, greatest, value⟩ := p
    simp only [decodeFrom, Bool.and_eq_true, decide_eq_true_eq] at ok
    split_ifs at ok with bounds last
    · exact ⟨[octet], octets, _, rfl, .last bounds.1 bounds.2 last rfl⟩
    · obtain ⟨tail, rest, code, rfl, finishes⟩ := ih ok
      exact ⟨octet :: tail, rest, code, rfl, .next bounds.1 bounds.2 (by omega) finishes⟩

end

/-! Leads. -/

/-- The octets that begin a longer character. After the least lead the second octet keeps out shorter
characters, and after two others the surrogates and what is beyond the last character. -/
inductive Lead (start : Nat) : Nat → Partial → Prop where
  | two : 2 ≤ k → k < 32 → Lead start (0xc0 + k) ⟨0xc0 + k, start, 1, 0x80, 0xbf, k⟩
  | three : k < 16 → Lead start (0xe0 + k)
      ⟨0xe0 + k, start, 2, if k = 0 then 0xa0 else 0x80, if k = 13 then 0x9f else 0xbf, k⟩
  | four : k < 5 → Lead start (0xf0 + k)
      ⟨0xf0 + k, start, 3, if k = 0 then 0x90 else 0x80, if k = 4 then 0x8f else 0xbf, k⟩

theorem leadOctet?_eq_some_iff (lead start : Nat) (p : Partial) :
    leadOctet? lead start = some p ↔ Lead start lead p := by
  constructor
  · intro found
    unfold leadOctet? at found
    split_ifs at found with two zero surrogate three least last four
    all_goals
      obtain rfl := Option.some.inj found
      simp only [Bool.and_eq_true, decide_eq_true_eq] at *
    · obtain ⟨k, rfl⟩ := Nat.exists_eq_add_of_le (show 0xc0 ≤ lead by omega)
      have held : Lead start (0xc0 + k) _ := .two (by omega) (by omega)
      simpa using held
    · subst zero
      exact .three (k := 0) (by decide)
    · subst surrogate
      exact .three (k := 13) (by decide)
    · obtain ⟨k, rfl⟩ := Nat.exists_eq_add_of_le (show 0xe0 ≤ lead by omega)
      have held : Lead start (0xe0 + k) _ := .three (by omega)
      rw [if_neg (by omega), if_neg (by omega)] at held
      simpa using held
    · subst least
      exact .four (k := 0) (by decide)
    · subst last
      exact .four (k := 4) (by decide)
    · obtain ⟨k, rfl⟩ := Nat.exists_eq_add_of_le (show 0xf0 ≤ lead by omega)
      have held : Lead start (0xf0 + k) _ := .four (by omega)
      rw [if_neg (by omega), if_neg (by omega)] at held
      simpa using held
  · intro held
    cases held with
    | @two k least bound => interval_cases k <;> rfl
    | @three k bound => interval_cases k <;> rfl
    | @four k bound => interval_cases k <;> rfl

theorem toNat_ofNat_of_valid {code : Nat} (valid : code.isValidChar) :
    (Char.ofNat code).toNat = code := by
  rw [Char.ofNat, dif_pos valid]
  rfl

/-- A character beyond the first 128 has a lead, and the rest of its octets finish it. -/
theorem exists_lead {c : Char} (long : 0x80 ≤ c.toNat) (start : Nat) :
    ∃ lead p tail, charOctets c = lead :: tail ∧ Lead start lead p ∧ Finishes p tail c.toNat := by
  have valid : c.toNat < 0xd800 ∨ 0xdfff < c.toNat ∧ c.toNat < 0x110000 := c.valid
  rw [charOctets_eq, if_neg (by omega)]
  generalize c.toNat = n at long valid
  split_ifs with two three
  · exact ⟨_, _, _, rfl, .two (by omega) (by omega), .last (by omega) (by omega) le_rfl (by omega)⟩
  · refine ⟨_, _, _, rfl, .three (by omega), .next ?_ ?_ (by decide)
      (.last (by omega) (by omega) le_rfl (by omega))⟩
    all_goals split_ifs <;> omega
  · refine ⟨_, _, _, rfl, .four (by omega), .next ?_ ?_ (by decide)
      (.next (by omega) (by omega) (by decide) (.last (by omega) (by omega) le_rfl (by omega)))⟩
    all_goals split_ifs <;> omega

/-- What the octets owed to a lead make of it is a character, and these are its octets. -/
theorem charOctets_of_lead {lead start : Nat} {p : Partial} (held : Lead start lead p)
    (finishes : Finishes p tail code) : charOctets (Char.ofNat code) = lead :: tail := by
  have encoded : ∀ valid : code.isValidChar, charOctets (Char.ofNat code) = _ := fun valid => by
    rw [charOctets_eq, toNat_ofNat_of_valid valid]
  cases held with
  | two least bound =>
    cases finishes with
    | next _ _ owed => omega
    | last low high =>
      rw [encoded (.inl (by omega)), if_neg (by omega), if_pos (by omega)]
      simp; omega
  | three bound =>
    cases finishes with
    | last _ _ owed => omega
    | @next _ octet _ _ _ _ _ _ _ low high _ finishes =>
      have range : 0x80 ≤ octet ∧ octet ≤ 0xbf := by split_ifs at low high <;> omega
      cases finishes with
      | next _ _ owed => omega
      | last _ _ =>
        have valid : code.isValidChar := by
          unfold Nat.isValidChar
          split_ifs at low high <;> omega
        have least : 0x800 ≤ code := by split_ifs at low <;> omega
        rw [encoded valid, if_neg (by omega), if_neg (by omega), if_pos (by omega)]
        simp; omega
  | four bound =>
    cases finishes with
    | last _ _ owed => omega
    | @next _ octet _ _ _ _ _ _ _ low high _ finishes =>
      have range : 0x80 ≤ octet ∧ octet ≤ 0xbf := by split_ifs at low high <;> omega
      cases finishes with
      | last _ _ owed => omega
      | next _ _ _ finishes =>
        cases finishes with
        | next _ _ owed => omega
        | last _ _ =>
          have least : 0x10000 ≤ code := by split_ifs at low <;> omega
          have greatest : code < 0x110000 := by split_ifs at high <;> omega
          rw [encoded (.inr ⟨by omega, greatest⟩), if_neg (by omega), if_neg (by omega), if_neg (by omega)]
          simp; omega

/-! Whole texts. -/

theorem decodeFrom_char (c : Char) (offset : Nat) (done : List Char) (rest : List Nat) :
    decodeFrom offset none done (charOctets c ++ rest) =
      decodeFrom (offset + (charOctets c).length) none (c :: done) rest := by
  by_cases short : c.toNat < 0x80
  · rw [charOctets_eq, if_pos short]
    simp [decodeFrom, short]
  · obtain ⟨lead, p, tail, octets, held, finishes⟩ := exists_lead (Nat.le_of_not_lt short) offset
    have found := (leadOctet?_eq_some_iff lead offset p).mpr held
    have long : ¬lead < 0x80 := by cases held <;> omega
    rw [octets, List.cons_append, decodeFrom]
    simp only [long, if_false, found]
    rw [decodeFrom_finishes finishes, Char.ofNat_toNat, List.length_cons, Nat.add_assoc, Nat.add_comm 1]

theorem decodeFrom_octets (cs done : List Char) (offset : Nat) :
    decodeFrom offset none done (cs.flatMap charOctets) = .ok (done.reverse ++ cs) := by
  induction cs generalizing done offset with
  | nil => simp [decodeFrom]
  | cons c cs ih =>
    rw [List.flatMap_cons, decodeFrom_char, ih]
    simp

theorem decodeUtf8_octetsOf (text : String) : decodeUtf8 (octetsOf text) = .ok text.toList := by
  have octets := octetsOf_ofList text.toList
  rw [String.ofList_toList] at octets
  rw [octets, decodeUtf8, decodeFrom_octets]
  rfl

/-- Each character is read from octets of its own, shortest form only. -/
theorem octets_of_decodeFrom {octets : List Nat} (ok : decodeFrom offset none done octets = .ok text) :
    ∃ cs : List Char, octets = cs.flatMap charOctets := by
  generalize size : octets.length = n
  induction n using Nat.strongRecOn generalizing octets offset done with
  | ind n ih =>
  subst size
  cases octets with
  | nil => exact ⟨[], rfl⟩
  | cons octet octets =>
    rw [decodeFrom] at ok
    by_cases short : octet < 0x80
    · rw [if_pos short] at ok
      obtain ⟨cs, rfl⟩ := ih _ (by simp) ok rfl
      refine ⟨Char.ofNat octet :: cs, ?_⟩
      have value : (Char.ofNat octet).toNat = octet := toNat_ofNat_of_valid (.inl (by omega))
      rw [List.flatMap_cons, charOctets_eq, value, if_pos short, List.singleton_append]
    · rw [if_neg short] at ok
      cases found : leadOctet? octet offset with
      | none => simp [found] at ok
      | some p =>
        simp only [found] at ok
        obtain ⟨tail, rest, code, rfl, finishes⟩ := finishes_of_decodeFrom ok
        rw [decodeFrom_finishes finishes] at ok
        have shorter : rest.length < (octet :: (tail ++ rest)).length := by
          rw [List.length_cons, List.length_append]
          omega
        obtain ⟨cs, rfl⟩ := ih _ shorter ok rfl
        have octets := charOctets_of_lead ((leadOctet?_eq_some_iff _ _ _).mp found) finishes
        exact ⟨Char.ofNat code :: cs, by rw [List.flatMap_cons, octets, List.cons_append]⟩

/-- A text is read from its own octets, and from no others. -/
theorem decodeUtf8_eq_ok_iff (octets : List Nat) (text : List Char) :
    decodeUtf8 octets = .ok text ↔ octets = octetsOf (String.ofList text) := by
  constructor
  · intro ok
    obtain ⟨cs, rfl⟩ := octets_of_decodeFrom ok
    rw [decodeUtf8, decodeFrom_octets] at ok
    obtain rfl : cs = text := Except.ok.inj ok
    exact (octetsOf_ofList cs).symm
  · rintro rfl
    rw [decodeUtf8_octetsOf, String.toList_ofList]

theorem unifyLines_eq_self {text : List Char} (plain : '\r' ∉ text) : unifyLines text = text := by
  induction text with
  | nil => rfl
  | cons c cs ih =>
    obtain ⟨different, rest⟩ := not_or.mp (mt List.mem_cons.mpr plain)
    rw [unifyLines, ih rest]
    -- No line end begins here.
    all_goals
      intros
      simp_all

end Formulary
