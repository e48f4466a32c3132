/-!
Numbers of the JSON data format, as they are written.

A number that is held in memory is an integer or a double.  Its value as a double is taken in
two roundings: the digits that fit 64 bits are rounded first, then their product with a power
of ten.  A number just below the largest double may therefore be out of range, and digits past
the twentieth never bring one there.
-/

namespace TapeLang

/-- A number as it is written: sign, digits before the point, digits after it, exponent. -/
structure Json.Numeral where
  negative : Bool
  whole : Nat
  fraction : Option (List Char)
  exponent : Option Int
deriving DecidableEq

namespace Json.Numeral

def digit (c : Char) : Nat := c.toNat - '0'.toNat

def digits (cs : List Char) : Nat := cs.foldl (fun n c => 10 * n + digit c) 0

/-- The integer a numeral writes.  A point or an exponent makes a numeral no integer, whatever
its value, and so does a sign before zero. -/
def toInt? : Numeral → Option Int
  | ⟨false, n, none, none⟩ => some n
  | ⟨true, n + 1, none, none⟩ => some (-(n + 1 : Nat))
  | _ => none

/-- Appends digits to a number up to the first that would take it past 64 bits.  Returns the
number and how many digits were left. -/
def append (m : Nat) : List Char → Nat × Nat
  | [] => (m, 0)
  | c :: cs =>
    if 10 * m + digit c < 0x10000000000000000 then append (10 * m + digit c) cs
    else (m, cs.length + 1)

/-- The leading digits and the power of ten that goes with them.  A digit left before the point
raises the power by one, and a digit left after it changes nothing. -/
def leading (n : Numeral) : Nat × Int :=
  let fraction := n.fraction.getD []
  let (m, above) := append 0 (Nat.toDigits 10 n.whole)
  let (m, below) := append m fraction
  (m, above - (fraction.length - below : Nat) + n.exponent.getD 0)

/-- The number of 53 significant bits next to a number, and of two the one with an even last
bit. -/
def nearest (n : Nat) : Nat :=
  let unit := Nat.pow 2 (Nat.log2 n - 52)
  let q := n / unit
  let r := n % unit
  if 2 * r < unit ∨ (2 * r = unit ∧ q % 2 = 0) then q * unit else (q + 1) * unit

/-- Whether the value is in the range of a double.  A power of ten past the 308th is out of it
by itself. -/
def isFinite (n : Numeral) : Bool :=
  let (m, power) := n.leading
  m = 0 || power < 0 ||
    (power ≤ 308 && nearest (nearest m * nearest (Nat.pow 10 power.toNat)) < Nat.pow 2 1024)

end Json.Numeral

end TapeLang
