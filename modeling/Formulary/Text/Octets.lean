/-!
Text from octets. UTF-8 is decoded strictly: a character too many, too few or out of range is a fault at
its octets. The ends of lines are then made one newline each.
-/
namespace Formulary

/-- Why octets are not UTF-8. -/
inductive OctetFault where
  | start | continuation | ended
deriving DecidableEq, Repr

/-- Octets from `first` up to, not including, `next` that begin no character. -/
structure Malformed where
  reason : OctetFault
  octet : Nat
  first : Nat
  next : Nat
deriving DecidableEq, Repr

def OctetFault.text : OctetFault → String
  | .start => "invalid start byte"
  | .continuation => "invalid continuation byte"
  | .ended => "unexpected end of data"

def hexPair (n : Nat) : String := String.ofList [Nat.digitChar (n / 16), Nat.digitChar (n % 16)]

def Malformed.message (m : Malformed) : String :=
  let place :=
    if m.next = m.first + 1 then
      "byte 0x" ++ hexPair m.octet ++ " in position " ++ toString m.first
    else "bytes in position " ++ toString m.first ++ "-" ++ toString (m.next - 1)
  "'utf-8' codec can't decode " ++ place ++ ": " ++ m.reason.text

/-- A character of which some octets have been read: the first, how many are owed, the bounds of the
next and the value so far. -/
structure Partial where
  first : Nat
  start : Nat
  owed : Nat
  least : Nat
  greatest : Nat
  value : Nat

/-- The first octet of a longer character. The bounds of the second keep out overlong forms, surrogates
and values beyond the last code point. -/
def leadOctet? (octet start : Nat) : Option Partial :=
  if 0xc2 ≤ octet && octet ≤ 0xdf then some ⟨octet, start, 1, 0x80, 0xbf, octet - 0xc0⟩
  else if octet = 0xe0 then some ⟨octet, start, 2, 0xa0, 0xbf, 0⟩
  else if octet = 0xed then some ⟨octet, start, 2, 0x80, 0x9f, 0xd⟩
  else if 0xe1 ≤ octet && octet ≤ 0xef then some ⟨octet, start, 2, 0x80, 0xbf, octet - 0xe0⟩
  else if octet = 0xf0 then some ⟨octet, start, 3, 0x90, 0xbf, 0⟩
  else if octet = 0xf4 then some ⟨octet, start, 3, 0x80, 0x8f, 4⟩
  else if 0xf1 ≤ octet && octet ≤ 0xf3 then some ⟨octet, start, 3, 0x80, 0xbf, octet - 0xf0⟩
  else none

def decodeFrom (offset : Nat) (pending : Option Partial) (done : List Char) :
    List Nat → Except Malformed (List Char)
  | [] => match pending with
    | none => .ok done.reverse
    | some p => .error ⟨.ended, p.first, p.start, offset⟩
  | octet :: rest => match pending with
    | none =>
      if octet < 0x80 then decodeFrom (offset + 1) none (Char.ofNat octet :: done) rest
      else match leadOctet? octet offset with
        | some p => decodeFrom (offset + 1) (some p) done rest
        | none => .error ⟨.start, octet, offset, offset + 1⟩
    | some p =>
      if p.least ≤ octet && octet ≤ p.greatest then
        let value := 64 * p.value + (octet - 0x80)
        if p.owed ≤ 1 then decodeFrom (offset + 1) none (Char.ofNat value :: done) rest
        else
          decodeFrom (offset + 1) (some { p with owed := p.owed - 1, least := 0x80, greatest := 0xbf, value })
            done rest
      else .error ⟨.continuation, p.first, p.start, offset⟩

def decodeUtf8 (octets : List Nat) : Except Malformed (List Char) := decodeFrom 0 none [] octets

/-- A carriage return, alone or before a newline, ends a line as a newline does. -/
def unifyLines : List Char → List Char
  | [] => []
  | '\r' :: '\n' :: cs => '\n' :: unifyLines cs
  | '\r' :: cs => '\n' :: unifyLines cs
  | c :: cs => c :: unifyLines cs

end Formulary
