import Mathlib.Data.List.Basic
import TapeLang.Json.Parser
import TapeLang.Json.Render

/-!
String literals and numerals that are written are read back.

Readers are followed through `Gives`, which forgets the proof that something was taken.  A string
literal is read in two passes, into elements and then into a text, and `Element.ofChar` is what the
first pass makes of an escaped character.  A numeral ends where nothing can continue it, so the text
after it has to satisfy `Ends`.
-/

namespace TapeLang
namespace Json
namespace Parser

def Gives {α : Type} {n : Nat} (r : Option (Read Char α n)) (v : α) (rest : List Char) : Prop :=
  ∃ h, r = some ⟨v, rest, h⟩

/-- How a written character is read: some control characters are written as code units. -/
def Element.ofChar (c : Char) : Element :=
  if c < ' ' ∧ c ∉ ['\x08', '\t', '\n', '\x0c', '\r'] then .unit c.toNat else .char c

theorem hexDigit_digitChar {n : Nat} (h : n < 16) : hexDigit (Nat.digitChar n) = some n := by
  have hall : ∀ n < 16, hexDigit (Nat.digitChar n) = some n := by decide
  exact hall n h

theorem elements_escape (seen : List Element) (c : Char) (rest : List Char) :
    elements seen (escape c ++ rest) = elements (.ofChar c :: seen) rest := by
  have hnamed : ∀ c ∈ ['"', '\\', '\x08', '\t', '\n', '\x0c', '\r'],
      elements seen (escape c ++ rest) = elements (.ofChar c :: seen) rest := by
    simp only [List.forall_mem_cons]
    exact ⟨rfl, rfl, rfl, rfl, rfl, rfl, rfl, nofun⟩
  by_cases hmem : c ∈ ['"', '\\', '\x08', '\t', '\n', '\x0c', '\r']
  · exact hnamed c hmem
  simp only [List.mem_cons, List.not_mem_nil, or_false, not_or] at hmem
  obtain ⟨hquote, hslash, hb, ht, hn, hf, hr⟩ := hmem
  simp only [escape, hquote, hslash, hb, ht, hn, hf, hr, if_false]
  by_cases hc : c < ' '
  · have hlt : c.toNat < 32 := hc
    have hhex : hex4 '0' '0' (Nat.digitChar (c.toNat / 16)) (Nat.digitChar (c.toNat % 16)) =
        some c.toNat := by
      rw [hex4, hexDigit_digitChar (by omega), hexDigit_digitChar (by omega)]
      show some ((0 * 16 + 0) * 256 + c.toNat / 16 * 16 + c.toNat % 16) = _
      congr 1
      omega
    have hof : Element.ofChar c = .unit c.toNat := by simp [Element.ofChar, hc, hb, ht, hn, hf, hr]
    rw [if_pos hc, hof]
    show elements seen ('\\' :: 'u' :: '0' :: '0' :: _ :: _ :: rest) = _
    rw [elements, hhex]
  · have hof : Element.ofChar c = .char c := by simp [Element.ofChar, hc]
    rw [if_neg hc, hof, List.singleton_append, elements, if_neg hc]
    · exact hquote
    · intro a b c' d rest' h
      exact absurd h hslash
    · intro e rest' h
      exact absurd h hslash

theorem elements_flatMap_escape (seen : List Element) (s : List Char) (after : List Char) :
    elements seen (s.flatMap escape ++ '"' :: after) =
      some (seen.reverse ++ s.map .ofChar, after) := by
  induction s generalizing seen with
  | nil => rw [List.flatMap_nil, List.nil_append, elements, List.map_nil, List.append_nil]
  | cons c s ih =>
    rw [List.flatMap_cons, List.append_assoc, elements_escape, ih, List.reverse_cons,
      List.append_assoc, List.map_cons, List.singleton_append]

/-- A code unit outside the surrogates stands for itself. -/
theorem joined_unit {n : Nat} (hn : n < 0xd800) (seen : List Char) (rest : List Element) :
    joined seen (.unit n :: rest) = joined (Char.ofNat n :: seen) rest := by
  have hhigh : isHigh n = false := by
    simp only [isHigh, Bool.and_eq_false_iff, decide_eq_false_iff_not]
    omega
  have hlow : isLow n = false := by
    simp only [isLow, Bool.and_eq_false_iff, decide_eq_false_iff_not]
    omega
  match rest with
  | [] => simp [joined, hhigh, hlow]
  | .char c :: rest => simp [joined, hhigh, hlow]
  | .unit m :: rest => simp [joined, hhigh, hlow]

theorem joined_map_ofChar (seen s : List Char) :
    joined seen (s.map .ofChar) = some (String.ofList (seen.reverse ++ s)) := by
  induction s generalizing seen with
  | nil => rw [List.map_nil, joined, List.append_nil]
  | cons c s ih =>
    have hjoined : joined seen ((c :: s).map .ofChar) = joined (c :: seen) (s.map .ofChar) := by
      rw [List.map_cons, Element.ofChar]
      split
      · next h =>
        have hlt : c.toNat < 32 := h.1
        rw [joined_unit (by omega), Char.ofNat_toNat]
      · rw [joined]
    rw [hjoined, ih, List.reverse_cons, List.append_assoc, List.singleton_append]

theorem gives_string {cs rest : List Char} {found : List Element}
    (h : elements [] cs = some (found, rest)) : Gives (string cs) (joined [] found) rest := by
  refine ⟨length_elements h, ?_⟩
  unfold string
  split
  · next h' =>
    rw [h] at h'
    cases h'
    rfl
  · next h' =>
    rw [h] at h'
    cases h'

/-- A string literal is read back after its opening quote. -/
theorem gives_string_writeText (s : Option String) (after : List Char) :
    ∃ cs, writeText s after = '"' :: cs ∧ Gives (string cs) s after := by
  refine ⟨_, rfl, ?_⟩
  cases s with
  | none => exact @gives_string _ after [.unit 0xd800] rfl
  | some s =>
    have h := gives_string (elements_flatMap_escape [] s.toList after)
    rwa [List.reverse_nil, List.nil_append, joined_map_ofChar, List.reverse_nil, List.nil_append,
      String.ofList_toList] at h

/-! ## Numerals -/

def StopsDigits (after : List Char) : Prop := ∀ c ∈ after.head?, c.isDigit = false

/-- A text that cannot continue a numeral. -/
def Ends (after : List Char) : Prop :=
  ∀ c ∈ after.head?, c.isDigit = false ∧ c ≠ '.' ∧ c ≠ 'e' ∧ c ≠ 'E'

theorem Ends.stopsDigits {after : List Char} (h : Ends after) : StopsDigits after :=
  fun c hc => (h c hc).1

theorem gives_digits {ds after : List Char} (hne : ds ≠ []) (hds : ∀ c ∈ ds, c.isDigit)
    (hafter : StopsDigits after) : Gives (digits (ds ++ after)) ds after := by
  obtain ⟨d, ds, rfl⟩ := List.exists_cons_of_ne_nil hne
  rw [List.forall_mem_cons] at hds
  have htake : (ds ++ after).takeWhile Char.isDigit = ds := by
    rw [List.takeWhile_append_of_pos hds.2]
    cases after with
    | nil => simp
    | cons c rest => simp [hafter c rfl]
  have hdrop : (ds ++ after).dropWhile Char.isDigit = after := by
    rw [List.dropWhile_append_of_pos hds.2]
    cases after with
    | nil => simp
    | cons c rest => simp [hafter c rfl]
  refine ⟨by simp only [List.cons_append, List.length_cons, List.length_append]; omega, ?_⟩
  show digits (d :: (ds ++ after)) = _
  rw [digits, if_pos hds.1]
  simp only [htake, hdrop]

theorem isDigit_toDigits (n : Nat) : ∀ c ∈ Nat.toDigits 10 n, c.isDigit :=
  fun _ hc => Nat.isDigit_of_mem_toDigits (by decide) (by decide) hc

theorem digits_toDigits (n : Nat) : Numeral.digits (Nat.toDigits 10 n) = n := by
  have h := Nat.ofDigitChars_ten_toDigits (n := n)
  rw [Nat.ofDigitChars_eq_foldl] at h
  exact h

/-- The first digit of a positive number is not zero. -/
theorem head?_toDigits {n : Nat} (hn : n ≠ 0) : (Nat.toDigits 10 n).head? ≠ some '0' := by
  induction n using Nat.strongRecOn with
  | ind n ih =>
    rw [Nat.toDigits_eq_if (by decide)]
    by_cases hlt : n < 10
    · rw [if_pos hlt]
      have hall : ∀ n < 10, n ≠ 0 → [Nat.digitChar n].head? ≠ some '0' := by decide
      exact hall n hlt hn
    · rw [if_neg hlt, List.head?_append]
      have hhead := ih (n / 10) (by omega) (by omega)
      cases hd : (Nat.toDigits 10 (n / 10)).head? with
      | none => exact absurd (List.head?_eq_none_iff.mp hd) Nat.toDigits_ne_nil
      | some d =>
        rw [hd] at hhead
        exact hhead

theorem gives_wholePart {n : Nat} {after : List Char} (hafter : StopsDigits after) :
    Gives (wholePart (Nat.toDigits 10 n ++ after)) n after := by
  obtain ⟨h, hdigits⟩ := gives_digits Nat.toDigits_ne_nil (isDigit_toDigits n) hafter
  have hzero : ¬ ((Nat.toDigits 10 n).head? = some '0' ∧ Nat.toDigits 10 n ≠ ['0']) := by
    intro hboth
    by_cases hn : n = 0
    · subst hn
      exact hboth.2 rfl
    · exact head?_toDigits hn hboth.1
  refine ⟨h, ?_⟩
  rw [wholePart, hdigits]
  show (if _ then none else some _) = _
  rw [if_neg hzero]
  congr
  exact digits_toDigits n

def fractionChars : Option (List Char) → List Char
  | some ds => '.' :: ds
  | none => []

def exponentChars : Option Int → List Char
  | some e => 'e' :: (if e < 0 then ['-'] else []) ++ Nat.toDigits 10 e.natAbs
  | none => []

theorem gives_fractionPart {f : Option (List Char)}
    (hf : ∀ ds ∈ f, ds ≠ [] ∧ ∀ c ∈ ds, c.isDigit) {after : List Char}
    (hafter : StopsDigits after) (hpoint : '.' ∉ after.head?) :
    Gives (fractionPart (fractionChars f ++ after)) f after := by
  cases f with
  | none =>
    refine ⟨Nat.lt_succ_self _, ?_⟩
    show fractionPart after = _
    unfold fractionPart
    split
    · exact absurd rfl hpoint
    · rfl
  | some ds =>
    obtain ⟨hne, hds⟩ := hf ds rfl
    obtain ⟨h, hdigits⟩ := gives_digits hne hds hafter
    refine ⟨?_, ?_⟩
    · simp only [fractionChars, List.cons_append, List.length_cons]
      omega
    · show fractionPart ('.' :: (ds ++ after)) = _
      rw [fractionPart, hdigits]
      rfl

theorem gives_exponentPart_minus {cs ds after : List Char} (h : Gives (digits cs) ds after) :
    Gives (exponentPart ('e' :: '-' :: cs)) (some (-(Numeral.digits ds : Int))) after := by
  obtain ⟨h, hdigits⟩ := h
  refine ⟨by simp only [List.length_cons]; omega, ?_⟩
  rw [exponentPart, if_pos (.inl rfl), exponentSign]
  dsimp only
  rw [hdigits]
  rfl

theorem gives_exponentPart_plain {cs ds after : List Char} (h : Gives (digits cs) ds after) :
    Gives (exponentPart ('e' :: cs)) (some (Numeral.digits ds : Int)) after := by
  obtain ⟨h, hdigits⟩ := h
  have hsign : exponentSign cs = ⟨false, cs, Nat.lt_succ_self _⟩ := by
    unfold exponentSign
    split
    · cases hdigits
    · cases hdigits
    · rfl
  refine ⟨by simp only [List.length_cons]; omega, ?_⟩
  rw [exponentPart, if_pos (.inl rfl), hsign]
  dsimp only
  rw [hdigits]
  rfl

theorem gives_exponentPart (e : Option Int) {after : List Char} (hafter : Ends after) :
    Gives (exponentPart (exponentChars e ++ after)) e after := by
  cases e with
  | none =>
    refine ⟨Nat.lt_succ_self _, ?_⟩
    show exponentPart after = _
    cases after with
    | nil => rfl
    | cons c rest =>
      obtain ⟨-, -, he, hE⟩ := hafter c rfl
      rw [exponentPart, if_neg (by simp [he, hE])]
      rfl
  | some e =>
    have hdigits := gives_digits Nat.toDigits_ne_nil (isDigit_toDigits e.natAbs) hafter.stopsDigits
    by_cases he : e < 0
    · have hvalue : -(Numeral.digits (Nat.toDigits 10 e.natAbs) : Int) = e := by
        rw [digits_toDigits]
        omega
      have htext : exponentChars (some e) ++ after =
          'e' :: '-' :: (Nat.toDigits 10 e.natAbs ++ after) := by simp [exponentChars, he]
      have h := gives_exponentPart_minus hdigits
      rwa [hvalue, ← htext] at h
    · have hvalue : (Numeral.digits (Nat.toDigits 10 e.natAbs) : Int) = e := by
        rw [digits_toDigits]
        omega
      have htext : exponentChars (some e) ++ after =
          'e' :: (Nat.toDigits 10 e.natAbs ++ after) := by simp [exponentChars, he]
      have h := gives_exponentPart_plain hdigits
      rwa [hvalue, ← htext] at h

/-- What follows the whole part of a numeral that ends cannot continue it. -/
theorem stopsDigits_exponentChars (e : Option Int) {after : List Char} (hafter : Ends after) :
    StopsDigits (exponentChars e ++ after) ∧ '.' ∉ (exponentChars e ++ after).head? := by
  cases e with
  | none => exact ⟨hafter.stopsDigits, fun h => (hafter '.' h).2.1 rfl⟩
  | some e =>
    refine ⟨fun c hc => ?_, fun h => ?_⟩
    · cases hc
      rfl
    · cases h

theorem stopsDigits_fractionChars (f : Option (List Char)) {after : List Char}
    (hafter : StopsDigits after) : StopsDigits (fractionChars f ++ after) := by
  cases f with
  | none => exact hafter
  | some ds =>
    intro c hc
    cases hc
    rfl

end Parser

/-- A numeral that can be written: a point has digits after it. -/
def Numeral.Writable (n : Numeral) : Prop := ∀ ds ∈ n.fraction, ds ≠ [] ∧ ∀ c ∈ ds, c.isDigit

namespace Parser

theorem gives_unsigned {n : Numeral} (hn : n.Writable) {after : List Char} (hafter : Ends after) :
    Gives (unsigned n.negative (Nat.toDigits 10 n.whole ++
      (fractionChars n.fraction ++ (exponentChars n.exponent ++ after)))) n after := by
  obtain ⟨hdigits, hpoint⟩ := stopsDigits_exponentChars n.exponent hafter
  obtain ⟨h₁, hwhole⟩ := gives_wholePart (n := n.whole)
    (stopsDigits_fractionChars n.fraction hdigits)
  obtain ⟨h₂, hfraction⟩ := gives_fractionPart hn hdigits hpoint
  obtain ⟨h₃, hexponent⟩ := gives_exponentPart n.exponent hafter
  refine ⟨by omega, ?_⟩
  rw [unsigned, hwhole]
  dsimp only [Option.bind_eq_bind, Option.bind_some]
  rw [hfraction]
  dsimp only [Option.bind_some]
  rw [hexponent]
  rfl

theorem gives_numeral_minus {cs after : List Char} {n : Numeral}
    (h : Gives (unsigned true cs) n after) : Gives (numeral ('-' :: cs)) n after := by
  obtain ⟨h, hunsigned⟩ := h
  refine ⟨by simp only [List.length_cons]; omega, ?_⟩
  rw [numeral, hunsigned]
  rfl

theorem gives_numeral_plain {cs after : List Char} {n : Numeral}
    (h : Gives (unsigned false cs) n after) : Gives (numeral cs) n after := by
  obtain ⟨h, hunsigned⟩ := h
  refine ⟨h, ?_⟩
  unfold numeral
  split
  · cases hunsigned
  · exact hunsigned

/-- A numeral is read back. -/
theorem gives_numeral {n : Numeral} (hn : n.Writable) {after : List Char} (hafter : Ends after) :
    Gives (numeral (n.chars ++ after)) n after := by
  have hunsigned := gives_unsigned hn hafter
  have htext : n.chars ++ after = (if n.negative then ['-'] else []) ++ (Nat.toDigits 10 n.whole ++
      (fractionChars n.fraction ++ (exponentChars n.exponent ++ after))) := by
    show (if n.negative then ['-'] else []) ++ Nat.toDigits 10 n.whole ++
      fractionChars n.fraction ++ exponentChars n.exponent ++ after = _
    rw [List.append_assoc, List.append_assoc, List.append_assoc]
  rw [htext]
  cases hnegative : n.negative with
  | true =>
    rw [hnegative] at hunsigned
    exact gives_numeral_minus hunsigned
  | false =>
    rw [hnegative] at hunsigned
    exact gives_numeral_plain hunsigned

end Parser
end Json
end TapeLang
