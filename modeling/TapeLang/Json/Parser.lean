import TapeLang.Json
import TapeLang.Read

/-!
Reading JSON.

The grammar is the strict one: no comments, no trailing commas, nothing after the value, no
raw control characters in strings.  Half of a surrogate pair is no error here: the string that
holds it has no text.
-/

namespace TapeLang
namespace Json
namespace Parser

def isSpace (c : Char) : Bool := c = ' ' || c = '\t' || c = '\r' || c = '\n'

def skip (cs : List Char) : List Char := cs.dropWhile isSpace

theorem length_skip (cs : List Char) : (skip cs).length ≤ cs.length :=
  (List.dropWhile_sublist _).length_le

/-- What stands in a string literal: a character, or a code unit written by an escape. -/
inductive Element where
  | char (c : Char)
  | unit (n : Nat)

def escaped : Char → Option Char
  | '"' => some '"'
  | '\\' => some '\\'
  | '/' => some '/'
  | 'b' => some '\x08'
  | 'f' => some '\x0c'
  | 'n' => some '\n'
  | 'r' => some '\r'
  | 't' => some '\t'
  | _ => none

def hexDigit (c : Char) : Option Nat :=
  if c.isDigit then some (c.toNat - '0'.toNat)
  else if 'a' ≤ c ∧ c ≤ 'f' then some (c.toNat - 'a'.toNat + 10)
  else if 'A' ≤ c ∧ c ≤ 'F' then some (c.toNat - 'A'.toNat + 10)
  else none

def hex4 (a b c d : Char) : Option Nat := do
  return ((← hexDigit a) * 16 + (← hexDigit b)) * 256 + (← hexDigit c) * 16 + (← hexDigit d)

/-- The elements up to the closing quote, after those of `seen`, which are in reverse. -/
def elements (seen : List Element) : List Char → Option (List Element × List Char)
  | [] => none
  | '"' :: rest => some (seen.reverse, rest)
  | '\\' :: 'u' :: a :: b :: c :: d :: rest =>
    match hex4 a b c d with
    | some n => elements (.unit n :: seen) rest
    | none => none
  | '\\' :: e :: rest =>
    match escaped e with
    | some c => elements (.char c :: seen) rest
    | none => none
  | c :: rest => if c < ' ' then none else elements (.char c :: seen) rest

theorem length_elements {seen found : List Element} {cs rest : List Char}
    (h : elements seen cs = some (found, rest)) : rest.length < cs.length := by
  fun_induction elements seen cs <;> simp_all <;> omega

def isHigh (n : Nat) : Bool := 0xd800 ≤ n && n < 0xdc00

def isLow (n : Nat) : Bool := 0xdc00 ≤ n && n < 0xe000

/-- The text of some elements, after the characters of `seen`, which are in reverse.  A high
unit has to stand before a low one, and a low one after a high one. -/
def joined (seen : List Char) : List Element → Option String
  | [] => some (String.ofList seen.reverse)
  | .char c :: rest => joined (c :: seen) rest
  | .unit n :: .unit m :: rest =>
    if isHigh n && isLow m then
      joined (Char.ofNat (0x10000 + (n - 0xd800) * 0x400 + (m - 0xdc00)) :: seen) rest
    else if isHigh n || isLow n then none
    else joined (Char.ofNat n :: seen) (.unit m :: rest)
  | .unit n :: rest =>
    if isHigh n || isLow n then none else joined (Char.ofNat n :: seen) rest

def string (cs : List Char) : Option (Read Char (Option String) cs.length) :=
  match h : elements [] cs with
  | some (found, rest) => some ⟨joined [] found, rest, length_elements h⟩
  | none => none

def digits (cs : List Char) : Option (Read Char (List Char) cs.length) :=
  match cs with
  | [] => none
  | c :: rest =>
    if c.isDigit then
      some ⟨c :: rest.takeWhile Char.isDigit, rest.dropWhile Char.isDigit,
        Nat.lt_succ_of_le (List.dropWhile_sublist _).length_le⟩
    else none

/-- The digits before the point: no zero stands before another digit. -/
def wholePart (cs : List Char) : Option (Read Char Nat cs.length) := do
  let ⟨ds, rest, h⟩ ← digits cs
  if ds.head? = some '0' ∧ ds ≠ ['0'] then none
  else return ⟨Numeral.digits ds, rest, h⟩

def fractionPart (cs : List Char) : Option (Read Char (Option (List Char)) (cs.length + 1)) :=
  match cs with
  | '.' :: rest => do
    let ⟨ds, r, h⟩ ← digits rest
    return ⟨some ds, r, by simp only [List.length_cons]; omega⟩
  | cs => some ⟨none, cs, Nat.lt_succ_self _⟩

def exponentSign (cs : List Char) : Read Char Bool (cs.length + 1) :=
  match cs with
  | '-' :: rest => ⟨true, rest, by simp only [List.length_cons]; omega⟩
  | '+' :: rest => ⟨false, rest, by simp only [List.length_cons]; omega⟩
  | cs => ⟨false, cs, Nat.lt_succ_self _⟩

def exponentPart (cs : List Char) : Option (Read Char (Option Int) (cs.length + 1)) :=
  match cs with
  | [] => some ⟨none, [], Nat.lt_succ_self _⟩
  | c :: rest =>
    if c = 'e' ∨ c = 'E' then do
      let ⟨negative, r₁, h₁⟩ := exponentSign rest
      let ⟨ds, r₂, h₂⟩ ← digits r₁
      let n : Int := Numeral.digits ds
      return ⟨some (if negative then -n else n), r₂, by simp only [List.length_cons]; omega⟩
    else some ⟨none, c :: rest, Nat.lt_succ_self _⟩

def unsigned (negative : Bool) (cs : List Char) : Option (Read Char Numeral cs.length) := do
  let ⟨whole, r₁, h₁⟩ ← wholePart cs
  let ⟨fraction, r₂, h₂⟩ ← fractionPart r₁
  let ⟨exponent, r₃, h₃⟩ ← exponentPart r₂
  return ⟨⟨negative, whole, fraction, exponent⟩, r₃, by omega⟩

def numeral (cs : List Char) : Option (Read Char Numeral cs.length) :=
  match cs with
  | '-' :: rest => do
    let ⟨n, r, h⟩ ← unsigned true rest
    return ⟨n, r, by simp only [List.length_cons]; omega⟩
  | cs => unsigned false cs

mutual

def value (cs : List Char) : Option (Read Char Json cs.length) :=
  match cs with
  | 'n' :: 'u' :: 'l' :: 'l' :: rest => some ⟨.null, rest, by simp only [List.length_cons]; omega⟩
  | 't' :: 'r' :: 'u' :: 'e' :: rest =>
    some ⟨.bool true, rest, by simp only [List.length_cons]; omega⟩
  | 'f' :: 'a' :: 'l' :: 's' :: 'e' :: rest =>
    some ⟨.bool false, rest, by simp only [List.length_cons]; omega⟩
  | '"' :: rest => do
    let ⟨s, r, h⟩ ← string rest
    return ⟨.str s, r, by simp only [List.length_cons]; omega⟩
  | '[' :: rest =>
    match h₀ : skip rest with
    | ']' :: r => some ⟨.arr [], r, by
        have := length_skip rest
        simp only [h₀, List.length_cons] at this ⊢
        omega⟩
    | _ => do
      let ⟨vs, r, h⟩ ← items rest
      return ⟨.arr vs, r, by simp only [List.length_cons]; omega⟩
  | '\x7b' :: rest =>
    match h₀ : skip rest with
    | '\x7d' :: r => some ⟨.obj [], r, by
        have := length_skip rest
        simp only [h₀, List.length_cons] at this ⊢
        omega⟩
    | _ => do
      let ⟨ms, r, h⟩ ← members rest
      return ⟨.obj ms, r, by simp only [List.length_cons]; omega⟩
  | cs => do
    let ⟨n, r, h⟩ ← numeral cs
    return ⟨.num n, r, h⟩
termination_by 2 * cs.length

def items (cs : List Char) : Option (Read Char (List Json) cs.length) := do
  have h₀ := length_skip cs
  let ⟨v, r, h⟩ ← value (skip cs)
  have h₁ := length_skip r
  match h₂ : skip r with
  | ',' :: r' =>
    have h₃ : r'.length < r.length := by simp only [h₂, List.length_cons] at h₁; omega
    let ⟨vs, r'', h''⟩ ← items r'
    return ⟨v :: vs, r'', by omega⟩
  | ']' :: r' => return ⟨[v], r', by simp only [h₂, List.length_cons] at h₁; omega⟩
  | _ => none
termination_by 2 * cs.length + 1

def members (cs : List Char) : Option (Read Char (List (Option String × Json)) cs.length) :=
  have h₀ := length_skip cs
  match h₁ : skip cs with
  | '"' :: r₁ => do
    let ⟨k, r₂, h₂⟩ ← string r₁
    have h₃ := length_skip r₂
    match h₄ : skip r₂ with
    | ':' :: r₃ =>
      have h₅ := length_skip r₃
      have h₆ : (skip r₃).length < cs.length := by
        simp only [h₁, h₄, List.length_cons] at h₀ h₃; omega
      let ⟨v, r₄, h₇⟩ ← value (skip r₃)
      have h₈ := length_skip r₄
      match h₉ : skip r₄ with
      | ',' :: r₅ =>
        have h₁₀ : r₅.length < cs.length := by
          simp only [h₉, List.length_cons] at h₈; omega
        let ⟨ms, r₆, h₁₁⟩ ← members r₅
        return ⟨(k, v) :: ms, r₆, by omega⟩
      | '\x7d' :: r₅ =>
        return ⟨[(k, v)], r₅, by simp only [h₉, List.length_cons] at h₈; omega⟩
      | _ => none
    | _ => none
  | _ => none
termination_by 2 * cs.length + 1

end

end Parser

def parse (text : String) : Option Json := do
  let ⟨v, rest, _⟩ ← Parser.value (Parser.skip text.toList)
  if Parser.skip rest = [] then return v else none

end Json
end TapeLang
