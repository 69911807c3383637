import Formulary.Number.Shortest
import Formulary.Number.Digit
import Formulary.Text.White

/-!
Numbers as text. `Binary64.text` writes the shortest digits that read back, and `Binary64.ofText?`
reads decimal notation with an optional sign and exponent, and the names of the special values.
-/
namespace Formulary

/-- How decimal digits are laid out. -/
structure NumberLayout where
  /-- Exponents of the first digit that are written without an exponent part: `least ≤ e < bound`. -/
  least : Int
  bound : Int
  /-- The fewest digits of an exponent part. -/
  exponentDigits : Nat

/-- Positional from 0.0001 up to, not including, 10^16; an exponent has two digits or more. -/
def Binary64.layout : NumberLayout := ⟨-4, 16, 2⟩

def zeros (n : Nat) : String := String.ofList (List.replicate n '0')

/-- A positional number always has a fraction, `.0` if nothing else. -/
def positionalText (digits : List Char) (exponent : Int) : String :=
  let point := digits.length + exponent
  if 0 ≤ exponent then String.ofList digits ++ zeros exponent.toNat ++ ".0"
  else if 0 < point then
    String.ofList (digits.take point.toNat) ++ "." ++ String.ofList (digits.drop point.toNat)
  else "0." ++ zeros (-point).toNat ++ String.ofList digits

def scientificText (l : NumberLayout) (digits : List Char) (first : Int) : String :=
  let fraction := digits.drop 1
  let size := toString first.natAbs
  String.ofList (digits.take 1)
    ++ (if fraction.isEmpty then "" else "." ++ String.ofList fraction)
    ++ (if first < 0 then "e-" else "e+")
    ++ zeros (l.exponentDigits - size.length) ++ size

def Decimal.text (l : NumberLayout) (d : Decimal) : String :=
  let digits := (toString d.digits).toList
  let first : Int := d.exponent + digits.length - 1
  if l.least ≤ first ∧ first < l.bound then positionalText digits d.exponent
  else scientificText l digits first

namespace Binary64

def signText (negative : Bool) : String := if negative then "-" else ""

/-- The shortest text that reads back as the number. -/
def text : Binary64 → String
  | .finite negative units =>
    signText negative ++ (if units = 0 then "0.0" else (shortest units).text layout)
  | .infinite negative => signText negative ++ "inf"
  | .nan => "nan"

/-- An optional sign, and what follows it. -/
def splitSign : List Char → Bool × List Char
  | '-' :: cs => (true, cs)
  | '+' :: cs => (false, cs)
  | cs => (false, cs)

/-- Digits in which single underscores may separate one digit from the next. -/
def digitRun (afterDigit : Bool) : List Char → List Char × List Char
  | [] => ([], [])
  | c :: cs =>
    if isDigit c then
      let (run, rest) := digitRun true cs
      (c :: run, rest)
    else if c = '_' && afterDigit && (cs.head?.map isDigit).getD false then digitRun false cs
    else ([], c :: cs)

def exponentPart : List Char → Option Int
  | [] => some 0
  | c :: cs =>
    if c = 'e' || c = 'E' then
      let (negative, cs) := splitSign cs
      match digitRun false cs with
      | ([], _) => none
      | (digits, []) => some (if negative then -(digitsValue digits : Int) else digitsValue digits)
      | _ => none
    else none

/-- Exponents far outside the range are settled by the position of the first digit alone. -/
def ofDigits (negative : Bool) (digits : List Char) (exponent : Int) : Binary64 :=
  let value := digitsValue digits
  let first : Int := (toString value).length + exponent
  if value = 0 || decide (first < -400) then .finite negative 0
  else if 400 < first then .infinite negative
  else ofDecimal negative value exponent

def ofText? (s : String) : Option Binary64 :=
  let (negative, body) := splitSign (trim s.toList)
  let lower := String.ofList (body.map Char.toLower)
  if lower = "inf" || lower = "infinity" then some (.infinite negative)
  else if lower = "nan" then some .nan
  else
    let (whole, rest) := digitRun false body
    let (fraction, rest) := match rest with
      | '.' :: cs => digitRun false cs
      | cs => ([], cs)
    if whole.isEmpty && fraction.isEmpty then none
    else (exponentPart rest).map fun e => ofDigits negative (whole ++ fraction) (e - fraction.length)

end Binary64
end Formulary
