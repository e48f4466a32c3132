import Std.Data.ExtTreeMap
import TapeLang.Symbol

/-!
Tapes without ends, and a head.

A tape stores symbols by their positions, and a position without one is blank.  Writing a blank
removes what is stored, and the blanks of an input are not stored.  So a tape is `Tape.Sparse` from
its start on: all that it stores is letters.  Sparse tapes with the head at the same place that read
alike everywhere are equal (`Tape.Sparse.ext`).

What an operation does is said by `Tape.read`, which looks at a cell by its position:
`read_ofSymbols` and `read_act`.
-/

namespace TapeLang

structure Tape where
  head : Int
  cells : Std.ExtTreeMap Int Symbol
deriving DecidableEq

namespace Tape

def placed (input : List Symbol) : List (Int × Symbol) :=
  (input.zipIdx.filter fun e => e.1 ≠ .blank).map fun e => ((e.2 : Int), e.1)

/-- The tape that holds the given symbols from position zero on, the head at the first one. -/
def ofSymbols (input : List Symbol) : Tape := ⟨0, .ofList (placed input)⟩

/-- The cell at a position. -/
def read (t : Tape) (p : Int) : Symbol := t.cells[p]?.getD .blank

def here (t : Tape) : Symbol := t.read t.head

/-- Write under the head. -/
def write (t : Tape) : Symbol → Tape
  | .blank => { t with cells := t.cells.erase t.head }
  | .letter c => { t with cells := t.cells.insert t.head (.letter c) }

def move (t : Tape) (d : Direction) : Tape := { t with head := t.head + d.offset }

def act (t : Tape) (s : Option Symbol) (d : Option Direction) : Tape :=
  let written := s.elim t t.write
  d.elim written written.move

/-- What is stored, from left to right. -/
def stored (t : Tape) : List (Int × Symbol) := t.cells.toList

def letters (t : Tape) : List (Int × Char) :=
  t.stored.filterMap fun e =>
    match e.2 with
    | .letter c => some (e.1, c)
    | .blank => none

/-- The cells from the first stored one to the last one. -/
def stretch (t : Tape) : List Symbol :=
  match t.stored.head?, t.stored.getLast? with
  | some (first, _), some (last, _) =>
    (List.range (last - first + 1).toNat).map fun (i : Nat) => t.read (first + i)
  | _, _ => []

def window (t : Tape) : String := String.ofList (t.stretch.map Symbol.toChar)

@[simp] theorem head_write (t : Tape) (s : Symbol) : (t.write s).head = t.head := by
  cases s <;> rfl

@[simp] theorem head_move (t : Tape) (d : Direction) : (t.move d).head = t.head + d.offset := rfl

theorem head_act (t : Tape) (s : Option Symbol) (d : Option Direction) :
    (t.act s d).head = t.head + d.elim 0 Direction.offset := by
  cases s <;> cases d <;> simp [act]

theorem read_write (t : Tape) (s : Symbol) (p : Int) :
    (t.write s).read p = if p = t.head then s else t.read p := by
  by_cases hp : p = t.head
  · subst hp
    cases s <;> simp [write, read]
  · have hne : t.head ≠ p := Ne.symm hp
    cases s <;>
      simp [write, read, Std.ExtTreeMap.getElem?_insert, Std.ExtTreeMap.getElem?_erase, hp, hne]

/-- Moving the head does not change the tape. -/
theorem read_move (t : Tape) (d : Direction) (p : Int) : (t.move d).read p = t.read p := rfl

theorem read_act (t : Tape) (s : Option Symbol) (d : Option Direction) (p : Int) :
    (t.act s d).read p = s.elim (t.read p) fun s => if p = t.head then s else t.read p := by
  cases s <;> cases d <;> simp [act, read_move, read_write]

theorem mem_placed {input : List Symbol} {p : Int} {s : Symbol} :
    (p, s) ∈ placed input ↔ s ≠ .blank ∧ 0 ≤ p ∧ input[p.toNat]? = some s := by
  rw [placed, List.mem_map]
  constructor
  · intro h
    obtain ⟨⟨s', i⟩, hmem, heq⟩ := h
    obtain ⟨hzip, hne⟩ := List.mem_filter.mp hmem
    obtain ⟨rfl, rfl⟩ : (i : Int) = p ∧ s' = s := by simpa using heq
    exact ⟨of_decide_eq_true hne, Int.natCast_nonneg i, List.mem_zipIdx_iff_getElem?.mp hzip⟩
  · intro h
    obtain ⟨hne, hp, hs⟩ := h
    refine ⟨(s, p.toNat), List.mem_filter.mpr ⟨?_, decide_eq_true hne⟩, ?_⟩
    · exact List.mem_zipIdx_iff_getElem?.mpr hs
    · exact Prod.ext (Int.toNat_of_nonneg hp) rfl

theorem placed_ascending (input : List Symbol) :
    (placed input).Pairwise fun a b => a.1 < b.1 := by
  have hindex : input.zipIdx.Pairwise fun a b => a.2 < b.2 := by
    apply List.pairwise_map.mp
    rw [List.zipIdx_map_snd]
    exact List.pairwise_lt_range' 1
  apply List.pairwise_map.mpr
  apply (hindex.filter _).imp
  intro a b hab
  exact Int.ofNat_lt.mpr hab

/-- What is stored of an input is its symbols that are not blank. -/
theorem cells_ofSymbols {input : List Symbol} {p : Int} {s : Symbol} :
    (ofSymbols input).cells[p]? = some s ↔ s ≠ .blank ∧ 0 ≤ p ∧ input[p.toNat]? = some s := by
  have hdistinct : (placed input).Pairwise fun a b => ¬ compare a.1 b.1 = .eq := by
    apply (placed_ascending input).imp
    intro a b hab heq
    have hkeys := Std.LawfulEqCmp.eq_of_compare heq
    omega
  have hget : ∀ {q : Int} {r : Symbol}, (q, r) ∈ placed input →
      (ofSymbols input).cells[q]? = some r := fun hr =>
    Std.ExtTreeMap.getElem?_ofList_of_mem Std.ReflCmp.compare_self hdistinct hr
  rw [← mem_placed]
  constructor
  · intro h
    by_cases hmem : ((placed input).map Prod.fst).contains p
    · obtain ⟨⟨q, r⟩, hr, rfl⟩ := List.mem_map.mp (List.contains_iff_mem.mp hmem)
      rw [hget hr] at h
      cases h
      exact hr
    · have hnone : (ofSymbols input).cells[p]? = none :=
        Std.ExtTreeMap.getElem?_ofList_of_contains_eq_false (Bool.eq_false_iff.mpr hmem)
      rw [hnone] at h
      cases h
  · exact hget

theorem read_ofSymbols (input : List Symbol) (p : Int) :
    (ofSymbols input).read p = if p < 0 then .blank else input[p.toNat]?.getD .blank := by
  rw [read]
  cases hcell : (ofSymbols input).cells[p]? with
  | some s =>
    obtain ⟨-, hp, hs⟩ := cells_ofSymbols.mp hcell
    rw [if_neg (by omega), hs]
  | none =>
    by_cases hp : p < 0
    · rw [if_pos hp]
      rfl
    · rw [if_neg hp]
      cases hs : input[p.toNat]? with
      | none => rfl
      | some s =>
        by_cases hblank : s = .blank
        · exact hblank.symm
        · rw [cells_ofSymbols.mpr ⟨hblank, by omega, hs⟩] at hcell
          cases hcell

/-! ## Sparse tapes -/

/-- No blank is stored. -/
def Sparse (t : Tape) : Prop := ∀ p : Int, t.cells[p]? ≠ some .blank

theorem sparse_ofSymbols (input : List Symbol) : (ofSymbols input).Sparse := by
  intro p hp
  exact (cells_ofSymbols.mp hp).1 rfl

theorem Sparse.write {t : Tape} (h : t.Sparse) (s : Symbol) : (t.write s).Sparse := by
  intro p
  cases s with
  | blank =>
    rw [Tape.write, Std.ExtTreeMap.getElem?_erase]
    split
    · exact nofun
    · exact h p
  | letter c =>
    rw [Tape.write, Std.ExtTreeMap.getElem?_insert]
    split
    · exact nofun
    · exact h p

theorem Sparse.act {t : Tape} (h : t.Sparse) (s : Option Symbol) (d : Option Direction) :
    (t.act s d).Sparse := by
  have hwritten : (s.elim t t.write).Sparse := by
    cases s with
    | none => exact h
    | some s => exact h.write s
  cases d with
  | none => exact hwritten
  | some d => exact hwritten

/-- A sparse tape stores exactly the cells that are not blank. -/
theorem Sparse.cells_eq_some_iff {t : Tape} (h : t.Sparse) {p : Int} {s : Symbol} :
    t.cells[p]? = some s ↔ s ≠ .blank ∧ t.read p = s := by
  have hp := h p
  rw [read]
  cases hcell : t.cells[p]? with
  | none => exact iff_of_false nofun fun hs => hs.1 hs.2.symm
  | some s' =>
    rw [hcell] at hp
    constructor
    · intro hs
      cases hs
      exact ⟨fun hblank => hp (congrArg some hblank), rfl⟩
    · intro hs
      exact congrArg some hs.2

/-- A sparse tape is determined by where its head is and what is read from it. -/
theorem Sparse.cells_ext {t u : Tape} (ht : t.Sparse) (hu : u.Sparse)
    (h : ∀ p, t.read p = u.read p) : t.cells = u.cells := by
  apply Std.ExtTreeMap.ext_getElem?
  intro p
  apply Option.ext
  intro s
  rw [ht.cells_eq_some_iff, hu.cells_eq_some_iff, h]

theorem Sparse.ext {t u : Tape} (ht : t.Sparse) (hu : u.Sparse) (hhead : t.head = u.head)
    (h : ∀ p, t.read p = u.read p) : t = u := by
  have hcells := ht.cells_ext hu h
  cases t
  cases u
  cases hhead
  cases hcells
  rfl

end Tape
end TapeLang
