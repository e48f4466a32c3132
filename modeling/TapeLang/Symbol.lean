import TapeLang.Table

/-!
What a tape cell holds, and where a head goes.

The blank is written in two ways: as the word `blank` where symbols are named, and as the
character `_` where a tape is written cell by cell.
-/

namespace TapeLang

/-- A tape symbol: a letter or the blank, which every tape has. -/
inductive Symbol where
  | letter (c : Char)
  | blank
deriving DecidableEq

def isLetter (c : Char) : Bool := c.isLower || c.isDigit

namespace Symbol

def blankChar : Char := '_'

def ofChar (c : Char) : Symbol := if c = blankChar then .blank else .letter c

def toChar : Symbol → Char
  | .letter c => c
  | .blank => blankChar

@[simp] theorem toChar_ofChar (c : Char) : (ofChar c).toChar = c := by
  unfold ofChar
  split
  · next h => exact h.symm
  · rfl

def blankWord : String := "blank"

def text : Symbol → String
  | .letter c => String.singleton c
  | .blank => blankWord

structure Unnamed where
  text : String

def Unnamed.message (e : Unnamed) : String := "invalid tape symbol \"" ++ e.text ++ "\""

/-- The symbol a text names: `blank`, or a letter that an alphabet may hold. -/
def ofText (s : String) : Except Unnamed Symbol :=
  if s = blankWord then .ok .blank
  else match s.toList with
    | [c] => if isLetter c then .ok (.letter c) else .error ⟨s⟩
    | _ => .error ⟨s⟩

/-! ## Order

Letters stand in the order of their code points, and the blank after all of them. -/

def rank : Symbol → Nat
  | .letter c => c.toNat
  | .blank => 0x110000

theorem rank_letter_lt (c : Char) : (letter c).rank < blank.rank := by
  have h := c.valid
  simp only [rank, Char.toNat]
  rcases h with h | h
  · have : c.val.toNat < 0xd800 := h
    omega
  · have : c.val.toNat < 0x110000 := h.2
    omega

theorem rank_inj {a b : Symbol} (h : a.rank = b.rank) : a = b := by
  cases a with
  | letter c =>
    cases b with
    | letter d => exact congrArg letter (Char.toNat_inj.mp h)
    | blank => exact absurd h (Nat.ne_of_lt (rank_letter_lt c))
  | blank =>
    cases b with
    | letter d => exact absurd h (Nat.ne_of_gt (rank_letter_lt d))
    | blank => rfl

instance : LT Symbol := ⟨fun a b => a.rank < b.rank⟩

instance (a b : Symbol) : Decidable (a < b) := inferInstanceAs (Decidable (a.rank < b.rank))

instance : KeyOrder Symbol where
  irrefl a := Nat.lt_irrefl a.rank
  trans := Nat.lt_trans
  connected h h' := rank_inj (Nat.le_antisymm (Nat.not_lt.mp h') (Nat.not_lt.mp h))

end Symbol

inductive Direction where
  | left
  | right
deriving DecidableEq

namespace Direction

def offset : Direction → Int
  | .left => -1
  | .right => 1

def text : Direction → String
  | .left => "left"
  | .right => "right"

end Direction

end TapeLang
