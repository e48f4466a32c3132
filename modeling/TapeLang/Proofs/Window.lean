import Mathlib.Data.List.DropRight
import Mathlib.Order.Bounds.Basic
import TapeLang.Proofs.Sparse

/-!
The window of a tape.

`Tape.Shows` says what is on a tape: some symbols from a position on, and blanks around them.
Blanks at the two ends of the symbols can be left out, and once there are none left, both the
symbols and their position are determined by the tape (`Tape.Shows.unique`).

The window is read off from the first stored position to the last one, and nothing is left out on
the way.  On a sparse tape both ends are letters, so the walk gives what the tape shows between
blanks (`Tape.Sparse.trimmed_stretch`).  This is how the windows of inputs, of reloaded windows and
of finished computations are found.
-/

namespace TapeLang

/-- A list of symbols that neither starts nor ends with a blank. -/
structure Trimmed (symbols : List Symbol) : Prop where
  first : symbols.head? ≠ some .blank
  last : symbols.getLast? ≠ some .blank

theorem trimmed_map_letter (word : List Char) : Trimmed (word.map .letter) := by
  constructor
  · rw [List.head?_map]
    cases word.head? <;> exact nofun
  · rw [List.getLast?_map]
    cases word.getLast? <;> exact nofun

/-- Lists that do not end with a blank are equal if they agree up to blanks. -/
theorem Trimmed.ext {l m : List Symbol} (hl : Trimmed l) (hm : Trimmed m)
    (h : ∀ i : Nat, l[i]?.getD .blank = m[i]?.getD .blank) : l = m := by
  have hle : ∀ {l m : List Symbol}, Trimmed m →
      (∀ i : Nat, l[i]?.getD .blank = m[i]?.getD .blank) → m.length ≤ l.length := by
    intro l m hm h
    by_contra hlt
    have hlast := h (m.length - 1)
    rw [List.getElem?_eq_none (by omega), ← List.getLast?_eq_getElem?] at hlast
    cases hs : m.getLast? with
    | none =>
      rw [List.getLast?_eq_none_iff.mp hs, List.length_nil] at hlt
      exact hlt (Nat.zero_le _)
    | some s =>
      rw [hs] at hlast
      exact hm.last (hs.trans (congrArg some hlast.symm))
  have hlength : l.length = m.length :=
    Nat.le_antisymm (hle hl fun i => (h i).symm) (hle hm h)
  apply List.ext_getElem hlength
  intro i hi hi'
  have hcell := h i
  rwa [List.getElem?_eq_getElem hi, List.getElem?_eq_getElem hi'] at hcell

/-- The symbols without the blanks at both ends. -/
def trim (symbols : List Symbol) : List Symbol :=
  (symbols.dropWhile (· = .blank)).rdropWhile (· = .blank)

theorem trimmed_trim (symbols : List Symbol) : Trimmed (trim symbols) := by
  constructor
  · intro hblank
    rw [trim] at hblank
    obtain ⟨rest, hrest⟩ := List.rdropWhile_prefix (· = .blank) (symbols.dropWhile (· = .blank))
    have hhead : (symbols.dropWhile (· = .blank)).head? = some .blank := by
      rw [← hrest, List.head?_append, hblank]
      rfl
    have hnot := List.head?_dropWhile_not (· = .blank) symbols
    rw [hhead] at hnot
    simp at hnot
  · intro hblank
    have hne : trim symbols ≠ [] := List.getLast?_isSome.mp (by rw [hblank]; rfl)
    rw [List.getLast?_eq_some_getLast hne, Option.some.injEq] at hblank
    exact List.rdropWhile_last_not (fun s => decide (s = Symbol.blank)) _ hne
      (decide_eq_true hblank)

namespace Tape

/-- The tape holds the symbols from `p` on, and blanks around them. -/
structure Shows (t : Tape) (p : Int) (symbols : List Symbol) : Prop where
  before : ∀ q < p, t.read q = .blank
  cells : ∀ i : Nat, t.read (p + i) = symbols[i]?.getD .blank

theorem shows_ofSymbols (input : List Symbol) : (ofSymbols input).Shows 0 input := by
  constructor
  · intro q hq
    rw [read_ofSymbols, if_pos hq]
  · intro i
    rw [read_ofSymbols, Int.zero_add, if_neg (by omega), Int.toNat_natCast]

section

variable {t : Tape} {p q : Int} {l m : List Symbol}

theorem Shows.read_eq (h : t.Shows p l) (r : Int) :
    t.read r = if r < p then .blank else l[(r - p).toNat]?.getD .blank := by
  by_cases hr : r < p
  · rw [if_pos hr, h.before r hr]
  · rw [if_neg hr, ← h.cells]
    congr 1
    omega

/-- A blank in front of the symbols can be left out. -/
theorem shows_blank_cons : t.Shows p (.blank :: l) ↔ t.Shows (p + 1) l := by
  constructor
  · intro h
    constructor
    · intro r hr
      rcases Int.lt_or_eq_of_le (Int.lt_add_one_iff.mp hr) with hlt | rfl
      · exact h.before r hlt
      · simpa using h.cells 0
    · intro i
      have hcell := h.cells (i + 1)
      rw [List.getElem?_cons_succ] at hcell
      rw [← hcell]
      congr 1
      omega
  · intro h
    constructor
    · intro r hr
      exact h.before r (by omega)
    · intro i
      cases i with
      | zero => exact h.before _ (by omega)
      | succ i =>
        rw [List.getElem?_cons_succ, ← h.cells]
        congr 1
        omega

/-- A blank after the symbols can be left out. -/
theorem shows_concat_blank : t.Shows p (l ++ [.blank]) ↔ t.Shows p l := by
  have hcell : ∀ i : Nat, (l ++ [.blank])[i]?.getD .blank = l[i]?.getD .blank := by
    intro i
    rcases Nat.lt_trichotomy i l.length with hi | rfl | hi
    · rw [List.getElem?_append_left hi]
    · simp
    · rw [List.getElem?_eq_none (by simp; omega), List.getElem?_eq_none (by omega)]
  constructor
  · intro h
    exact ⟨h.before, fun i => (h.cells i).trans (hcell i)⟩
  · intro h
    exact ⟨h.before, fun i => (h.cells i).trans (hcell i).symm⟩

theorem Shows.dropWhile (h : t.Shows p l) : ∃ q, t.Shows q (l.dropWhile (· = .blank)) := by
  induction l generalizing p with
  | nil => exact ⟨p, h⟩
  | cons s l ih =>
    by_cases hs : s = .blank
    · subst hs
      rw [List.dropWhile_cons_of_pos (by simp)]
      exact ih (shows_blank_cons.mp h)
    · rw [List.dropWhile_cons_of_neg (by simpa using hs)]
      exact ⟨p, h⟩

theorem Shows.rdropWhile (h : t.Shows p l) : t.Shows p (l.rdropWhile (· = .blank)) := by
  induction l using List.reverseRecOn with
  | nil => exact h
  | append_singleton l s ih =>
    by_cases hs : s = .blank
    · subst hs
      rw [List.rdropWhile_concat_pos _ _ _ (by simp)]
      exact ih (shows_concat_blank.mp h)
    · rw [List.rdropWhile_concat_neg _ _ _ (by simpa using hs)]
      exact h

theorem Shows.trim (h : t.Shows p l) : ∃ q, t.Shows q (trim l) := by
  obtain ⟨q, hq⟩ := h.dropWhile
  exact ⟨q, hq.rdropWhile⟩

theorem Shows.isLeast (h : t.Shows p l) (hl : Trimmed l) (hne : l ≠ []) :
    IsLeast {q | t.read q ≠ .blank} p := by
  refine ⟨fun hblank => hl.first ?_, fun q hq => ?_⟩
  · have hcell := h.cells 0
    rw [Int.natCast_zero, Int.add_zero, hblank] at hcell
    cases l with
    | nil => exact absurd rfl hne
    | cons s l => exact congrArg some hcell.symm
  · by_contra hlt
    exact hq (h.before q (by omega))

theorem Shows.eq_nil_iff (h : t.Shows p l) (hl : Trimmed l) :
    l = [] ↔ ∀ q, t.read q = .blank := by
  constructor
  · intro hnil q
    rw [h.read_eq, hnil]
    simp
  · intro hblank
    by_contra hne
    exact (h.isLeast hl hne).1 (hblank p)

/-- A blank tape is blank from every position on. -/
theorem Shows.of_nil (h : t.Shows p []) (q : Int) : t.Shows q [] := by
  have hblank := (h.eq_nil_iff (trimmed_map_letter [])).mp rfl
  exact ⟨fun r _ => hblank r, fun i => hblank (q + i)⟩

/-- What a tape shows is determined by the tape, but for blanks at the ends. -/
theorem Shows.unique (hp : t.Shows p l) (hq : t.Shows q m) (hl : Trimmed l) (hm : Trimmed m) :
    l = m := by
  by_cases hne : l = []
  · rw [hne]
    exact ((hq.eq_nil_iff hm).mpr ((hp.eq_nil_iff hl).mp hne)).symm
  · have hne' : m ≠ [] := fun h => hne ((hp.eq_nil_iff hl).mpr ((hq.eq_nil_iff hm).mp h))
    obtain rfl : p = q := (hp.isLeast hl hne).unique (hq.isLeast hm hne')
    exact hl.ext hm fun i => (hp.cells i).symm.trans (hq.cells i)

end

/-! ## From the first stored position to the last one -/

theorem read_of_mem_stored {t : Tape} {e : Int × Symbol} (h : e ∈ t.stored) : t.read e.1 = e.2 := by
  rw [read, Std.ExtTreeMap.mem_toList_iff_getElem?_eq_some.mp h]
  rfl

theorem read_of_notMem_stored {t : Tape} {p : Int} (h : ∀ e ∈ t.stored, e.1 ≠ p) :
    t.read p = .blank := by
  rw [read]
  cases hcell : t.cells[p]? with
  | none => rfl
  | some s => exact absurd rfl (h _ (Std.ExtTreeMap.mem_toList_iff_getElem?_eq_some.mpr hcell))

/-- The outermost entries of a tape, and the walk between them. -/
structure Ends (t : Tape) (first last : Int × Symbol) : Prop where
  mem_first : first ∈ t.stored
  mem_last : last ∈ t.stored
  between : ∀ e ∈ t.stored, first.1 ≤ e.1 ∧ e.1 ≤ last.1
  walk : t.stretch = (List.range (last.1 - first.1 + 1).toNat).map fun i : Nat =>
    t.read (first.1 + i)

theorem exists_ends {t : Tape} (h : t.stored ≠ []) : ∃ first last, t.Ends first last := by
  have hfirst := List.head?_eq_some_head h
  have hlast := List.getLast?_eq_some_getLast h
  generalize t.stored.head h = first at hfirst
  generalize t.stored.getLast h = last at hlast
  obtain ⟨after, hafter⟩ := List.head?_eq_some_iff.mp hfirst
  obtain ⟨before, hbefore⟩ := List.getLast?_eq_some_iff.mp hlast
  have hlower := t.stored_ascending
  have hupper := t.stored_ascending
  rw [hafter, List.pairwise_cons] at hlower
  rw [hbefore, List.pairwise_append] at hupper
  refine ⟨first, last, List.mem_of_head? hfirst, List.mem_of_getLast? hlast, ?_, ?_⟩
  · intro e he
    constructor
    · rw [hafter] at he
      rcases List.mem_cons.mp he with rfl | he
      · exact Int.le_refl _
      · exact Int.le_of_lt (hlower.1 e he)
    · rw [hbefore] at he
      rcases List.mem_append.mp he with he | he
      · exact Int.le_of_lt (hupper.2.2 e he last (List.mem_singleton.mpr rfl))
      · exact Int.le_of_eq (congrArg Prod.fst (List.mem_singleton.mp he))
  · rw [stretch, hfirst, hlast]

section

variable {t : Tape} {first last : Int × Symbol}

theorem Ends.exists_walk (h : t.Ends first last) : ∃ n : Nat, first.1 + n = last.1 ∧
    t.stretch = (List.range (n + 1)).map fun i : Nat => t.read (first.1 + i) := by
  have hle := (h.between last h.mem_last).1
  have hlength : (last.1 - first.1 + 1).toNat = (last.1 - first.1).toNat + 1 := by omega
  refine ⟨(last.1 - first.1).toNat, by omega, ?_⟩
  rw [h.walk, hlength]

theorem Ends.head_stretch (h : t.Ends first last) : t.stretch.head? = some first.2 := by
  obtain ⟨n, -, hwalk⟩ := h.exists_walk
  rw [hwalk, List.range_succ_eq_map, List.map_cons, List.head?_cons]
  simp [read_of_mem_stored h.mem_first]

theorem Ends.getLast_stretch (h : t.Ends first last) : t.stretch.getLast? = some last.2 := by
  obtain ⟨n, hn, hwalk⟩ := h.exists_walk
  rw [hwalk, List.range_succ, List.map_append, List.map_singleton, List.getLast?_concat, hn,
    read_of_mem_stored h.mem_last]

/-- The walk shows the tape from its first stored position on. -/
theorem Ends.shows (h : t.Ends first last) : t.Shows first.1 t.stretch := by
  constructor
  · intro q hq
    apply read_of_notMem_stored
    intro e he heq
    have hbetween := h.between e he
    omega
  · intro i
    rw [h.walk, List.getElem?_map]
    by_cases hi : i < (last.1 - first.1 + 1).toNat
    · rw [List.getElem?_range hi]
      rfl
    · rw [List.getElem?_eq_none (by simpa using hi)]
      apply read_of_notMem_stored
      intro e he heq
      have hbetween := h.between e he
      omega

end

theorem exists_shows_stretch (t : Tape) : ∃ p, t.Shows p t.stretch := by
  by_cases h : t.stored = []
  · have hblank : ∀ p, t.read p = .blank := by
      intro p
      apply read_of_notMem_stored
      rw [h]
      exact nofun
    have hstretch : t.stretch = [] := by
      rw [stretch, h]
      rfl
    rw [hstretch]
    exact ⟨0, fun p _ => hblank p, fun i => hblank (0 + i)⟩
  · obtain ⟨first, last, hends⟩ := exists_ends h
    exact ⟨first.1, hends.shows⟩

/-- On a sparse tape the walk starts and ends with a letter. -/
theorem Sparse.trimmed_stretch {t : Tape} (ht : t.Sparse) : Trimmed t.stretch := by
  by_cases h : t.stored = []
  · rw [stretch, h]
    exact trimmed_map_letter []
  · obtain ⟨first, last, hends⟩ := exists_ends h
    constructor
    · rw [hends.head_stretch]
      intro hblank
      exact (ht.mem_stored_iff.mp hends.mem_first).1 (Option.some.inj hblank)
    · rw [hends.getLast_stretch]
      intro hblank
      exact (ht.mem_stored_iff.mp hends.mem_last).1 (Option.some.inj hblank)

theorem Sparse.exists_shows {t : Tape} (ht : t.Sparse) : ∃ p l, t.Shows p l ∧ Trimmed l := by
  obtain ⟨p, hp⟩ := t.exists_shows_stretch
  exact ⟨p, t.stretch, hp, ht.trimmed_stretch⟩

section

variable {t : Tape} {p : Int} {l : List Symbol}

/-- The window of a sparse tape is what it shows, without the blanks at the ends. -/
theorem Shows.window (h : t.Shows p l) (hl : Trimmed l) (ht : t.Sparse) :
    t.window = String.ofList (l.map Symbol.toChar) := by
  obtain ⟨q, hq⟩ := t.exists_shows_stretch
  rw [Tape.window, hq.unique h ht.trimmed_stretch hl]

theorem Shows.length_window (h : t.Shows p l) (hl : Trimmed l) (ht : t.Sparse) :
    t.window.length = l.length := by
  rw [h.window hl ht, String.length_ofList, List.length_map]

theorem Shows.window_eq_empty_iff (h : t.Shows p l) (hl : Trimmed l) (ht : t.Sparse) :
    t.window = "" ↔ ∀ q, t.read q = .blank := by
  rw [← h.eq_nil_iff hl, h.window hl ht, String.ofList_eq_empty_iff, List.map_eq_nil_iff]

end

/-- A sparse tape that reads as another one does further on stores the same there. -/
theorem Sparse.cells_of_shift {s t : Tape} (hs : s.Sparse) (ht : t.Sparse) {d : Int}
    (h : ∀ p, s.read p = t.read (d + p)) (p : Int) : s.cells[p]? = t.cells[d + p]? := by
  apply Option.ext
  intro c
  rw [hs.cells_eq_some_iff, ht.cells_eq_some_iff, h]

theorem Sparse.stored_of_shift {s t : Tape} (hs : s.Sparse) (ht : t.Sparse) {d : Int}
    (h : ∀ p, s.read p = t.read (d + p)) : s.stored = t.stored.map fun e => (e.1 - d, e.2) := by
  refine Table.eq_of_mem_iff s.stored_ascending ?_ fun e => ?_
  · refine List.pairwise_map.mpr (t.stored_ascending.imp ?_)
    intro x y hxy
    exact Int.sub_lt_sub_right hxy d
  · obtain ⟨p, c⟩ := e
    rw [hs.mem_stored_iff, h, ← ht.mem_stored_iff, List.mem_map]
    constructor
    · intro hmem
      exact ⟨(d + p, c), hmem, by simp⟩
    · intro hmem
      obtain ⟨⟨q, b⟩, hq, heq⟩ := hmem
      obtain ⟨rfl, rfl⟩ : q - d = p ∧ b = c := by simpa using heq
      rwa [show d + (q - d) = q by omega]

end Tape

end TapeLang
