import TapeLang.Json.Record
import TapeLang.Proofs.Json.Scalars

/-!
Integers of 64 bits.

An integer that fits 64 bits can be held in memory: all its digits count, no power of ten goes with
them, and rounding at most doubles a number.  It is read back from the numeral that is written for
it, with its sign.
-/

namespace TapeLang
namespace Json

namespace Numeral

theorem le_foldl_digits (m : Nat) (cs : List Char) :
    m ≤ cs.foldl (fun n c => 10 * n + digit c) m := by
  induction cs generalizing m with
  | nil => exact Nat.le_refl m
  | cons c cs ih =>
    rw [List.foldl_cons]
    exact Nat.le_trans (by omega) (ih (10 * m + digit c))

/-- Digits that fit are all taken. -/
theorem append_eq {m : Nat} {cs : List Char}
    (h : cs.foldl (fun n c => 10 * n + digit c) m < 0x10000000000000000) :
    append m cs = (cs.foldl (fun n c => 10 * n + digit c) m, 0) := by
  induction cs generalizing m with
  | nil => rfl
  | cons c cs ih =>
    rw [List.foldl_cons] at h ⊢
    have hfits := Nat.lt_of_le_of_lt (le_foldl_digits (10 * m + digit c) cs) h
    rw [append, if_pos hfits, ih h]

/-- A numeral without point and exponent, the digits of which fit 64 bits. -/
def IsShort (n : Numeral) : Prop :=
  n.whole < 0x10000000000000000 ∧ n.fraction = none ∧ n.exponent = none

theorem leading_of_isShort {n : Numeral} (h : n.IsShort) : n.leading = (n.whole, 0) := by
  obtain ⟨negative, whole, fraction, exponent⟩ := n
  obtain ⟨hlt, rfl, rfl⟩ := h
  have hdigits : (Nat.toDigits 10 whole).foldl (fun n c => 10 * n + digit c) 0 = whole :=
    Parser.digits_toDigits whole
  have happend : append 0 (Nat.toDigits 10 whole) = (whole, 0) := by
    rw [append_eq (by rwa [hdigits]), hdigits]
  rw [leading]
  dsimp only
  rw [happend]
  rfl

theorem nearest_le (n : Nat) : nearest n ≤ 2 * n + 1 := by
  have hunit : Nat.pow 2 (Nat.log2 n - 52) ≤ n + 1 := by
    by_cases hn : n = 0
    · subst hn
      decide
    · calc
        2 ^ (Nat.log2 n - 52) ≤ 2 ^ Nat.log2 n := Nat.pow_le_pow_right (by decide) (Nat.sub_le ..)
        _ ≤ n := Nat.log2_self_le hn
        _ ≤ n + 1 := Nat.le_succ n
  unfold nearest
  generalize Nat.pow 2 (Nat.log2 n - 52) = unit at hunit
  have hquotient := Nat.div_mul_le_self n unit
  dsimp only
  split
  · omega
  · rw [Nat.add_mul, Nat.one_mul]
    omega

theorem isFinite_of_isShort {n : Numeral} (h : n.IsShort) : n.isFinite := by
  have hbound : nearest (nearest n.whole * nearest (Nat.pow 10 0)) < Nat.pow 2 1024 := by
    have hlt := h.1
    have hone : nearest (Nat.pow 10 0) = 1 := by decide
    have hpow : ∀ k, 67 ≤ k → 2 ^ 67 ≤ Nat.pow 2 k := fun k hk =>
      Nat.pow_le_pow_right (by decide) hk
    have hinner := nearest_le n.whole
    have houter := nearest_le (nearest n.whole)
    rw [hone, Nat.mul_one]
    calc
      nearest (nearest n.whole) < 2 ^ 67 := by omega
      _ ≤ Nat.pow 2 1024 := hpow 1024 (by decide)
  rw [isFinite, leading_of_isShort h]
  simp only [Bool.or_eq_true, Bool.and_eq_true, decide_eq_true_eq]
  exact .inr ⟨by decide, hbound⟩

end Numeral

theorem int?_int (i : Int) : (Json.int i).int? = some i := by
  show Numeral.toInt? ⟨decide (i < 0), i.natAbs, none, none⟩ = some i
  by_cases hi : i < 0
  · obtain ⟨n, hn⟩ : ∃ n, i.natAbs = n + 1 := ⟨i.natAbs - 1, by omega⟩
    rw [decide_eq_true hi, hn]
    show some (-((n + 1 : Nat) : Int)) = some i
    congr 1
    omega
  · rw [decide_eq_false hi]
    show some (i.natAbs : Int) = some i
    congr 1
    omega

theorem word?_eq_some {j : Json} {n : Nat} (h : j.word? = some n) : n < 0x10000000000000000 := by
  obtain ⟨i, -, h⟩ := Option.bind_eq_some_iff.mp h
  split at h
  · cases h
    omega
  · cases h

theorem word?_nat {n : Nat} (h : n < 0x10000000000000000) : (Json.nat n).word? = some n := by
  have hint : (Json.nat n).int? = some (n : Int) := rfl
  rw [word?, hint, Option.bind_eq_bind, Option.bind_some, if_pos (by omega), Int.toNat_natCast]

theorem offset?_int_of_offset? {j : Json} {i : Int} (h : j.offset? = some i) :
    (Json.int i).offset? = some i := by
  obtain ⟨i', -, h⟩ := Option.bind_eq_some_iff.mp h
  split at h
  · next hrange =>
    cases h
    rw [offset?, int?_int, Option.bind_eq_bind, Option.bind_some, if_pos hrange]
  · cases h

theorem loadable_nat {n : Nat} (h : n < 0x10000000000000000) (depth : Nat) :
    (Json.nat n).loadable depth :=
  Numeral.isFinite_of_isShort (n := ⟨false, n, none, none⟩) ⟨h, rfl, rfl⟩

end Json
end TapeLang
