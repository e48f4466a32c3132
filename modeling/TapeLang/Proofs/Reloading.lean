import TapeLang.Proofs.Restarting
import TapeLang.Proofs.Safety
import TapeLang.Proofs.Window

/-!
Windows as inputs.

The window of a machine that was just started is its input without the blanks at the ends.  For a
machine of an automaton that the validator accepts the window can be given back as an input: every
symbol on the tape is accepted, no letter is written as the blank is, and so the window is read as
the symbols it was written from.  The new machine has the same tape, moved so that its first letter
stands at position zero.
-/

namespace TapeLang

namespace Symbol

theorem ofChar_eq_blank_iff {c : Char} : ofChar c = .blank ↔ c = blankChar := by
  unfold ofChar
  by_cases hc : c = blankChar
  · simp [hc]
  · simp [hc]

theorem toChar_eq_blankChar_iff {s : Symbol} (h : s ≠ .letter blankChar) :
    s.toChar = blankChar ↔ s = .blank := by
  cases s with
  | blank => simp [toChar]
  | letter c => exact ⟨fun hc => absurd (congrArg letter hc) h, nofun⟩

theorem ofChar_toChar {s : Symbol} (h : s ≠ .letter blankChar) : ofChar s.toChar = s := by
  cases s with
  | blank => rfl
  | letter c => exact if_neg fun hc => h (congrArg letter hc)

/-- A tape written cell by cell from symbols is read as these symbols. -/
theorem ofTape_map_toChar {symbols : List Symbol} (h : .letter blankChar ∉ symbols) :
    ofTape (String.ofList (symbols.map toChar)) = symbols := by
  rw [ofTape, String.toList_ofList, List.map_map]
  refine (List.map_congr_left fun s hs => ?_).trans symbols.map_id
  exact ofChar_toChar fun hblank => h (hblank ▸ hs)

end Symbol

theorem Automaton.WellFormed.not_accepts_blankChar {a : Automaton} (ha : a.WellFormed) :
    ¬ a.accepts (.letter Symbol.blankChar) := by
  intro h
  have hletter := ha.letters _ (List.contains_iff_mem.mp h)
  revert hletter
  decide

namespace Tape

theorem Shows.read_of_mem {t : Tape} {p : Int} {l : List Symbol} (h : t.Shows p l) {s : Symbol}
    (hs : s ∈ l) : ∃ q, t.read q = s := by
  obtain ⟨i, hi⟩ := List.mem_iff_getElem?.mp hs
  refine ⟨p + i, ?_⟩
  rw [h.cells, hi]
  rfl

/-- A window without a letter that is written as the blank is can be read back. -/
theorem Shows.ofTape_window {t : Tape} {p : Int} {l : List Symbol} (h : t.Shows p l)
    (hl : Trimmed l) (ht : t.Sparse) (hletters : .letter Symbol.blankChar ∉ l) :
    Symbol.ofTape t.window = l := by
  rw [h.window hl ht]
  exact Symbol.ofTape_map_toChar hletters

/-- The same symbols from position zero on and from `p` on. -/
theorem Shows.read_shift {s t : Tape} {p : Int} {l : List Symbol} (hs : s.Shows 0 l)
    (ht : t.Shows p l) (q : Int) : s.read q = t.read (p + q) := by
  rw [hs.read_eq, ht.read_eq]
  simp

/-- The window of an input is the input without the blanks at its ends. -/
theorem window_ofSymbols_ofTape (text : String) :
    (ofSymbols (Symbol.ofTape text)).window =
      String.ofList ((text.toList.dropWhile (· = Symbol.blankChar)).rdropWhile
        (· = Symbol.blankChar)) := by
  have hblank : (fun s => decide (s = .blank)) ∘ Symbol.ofChar =
      fun c => decide (c = Symbol.blankChar) := by
    funext c
    exact decide_eq_decide.mpr Symbol.ofChar_eq_blank_iff
  have hchars : Symbol.toChar ∘ Symbol.ofChar = id := funext Symbol.toChar_ofChar
  obtain ⟨p, hp⟩ := (shows_ofSymbols (Symbol.ofTape text)).trim
  rw [hp.window (trimmed_trim _) (sparse_ofSymbols _), trim, List.rdropWhile, Symbol.ofTape,
    List.dropWhile_map, ← List.map_reverse, List.dropWhile_map, ← List.map_reverse, List.map_map,
    hblank, hchars, List.map_id]
  rfl

/-- The window of a tape whose first letter stands at `p₀`: it starts and ends with a letter, and
its characters are the cells from `p₀` on. -/
structure WindowFrom (t : Tape) (p₀ : Int) : Prop where
  least : IsLeast {p | t.read p ≠ .blank} p₀
  first : t.window.toList.head? ≠ some Symbol.blankChar
  last : t.window.toList.getLast? ≠ some Symbol.blankChar
  cells : ∀ i < t.window.length, t.window.toList[i]? = some (t.read (p₀ + i)).toChar

theorem Shows.windowFrom {t : Tape} {p : Int} {l : List Symbol} (h : t.Shows p l)
    (hl : Trimmed l) (ht : t.Sparse) (hne : l ≠ []) (hletters : .letter Symbol.blankChar ∉ l) :
    t.WindowFrom p := by
  have hlist : t.window.toList = l.map Symbol.toChar := by
    rw [h.window hl ht, String.toList_ofList]
  have hblank : ∀ s ∈ l, s.toChar = Symbol.blankChar → s = .blank := fun s hs =>
    (Symbol.toChar_eq_blankChar_iff fun hletter => hletters (hletter ▸ hs)).mp
  refine ⟨h.isLeast hl hne, ?_, ?_, fun i hi => ?_⟩
  · rw [hlist, List.head?_map]
    intro hfirst
    obtain ⟨s, hs, hchar⟩ := Option.map_eq_some_iff.mp hfirst
    rw [hblank s (List.mem_of_head? hs) hchar] at hs
    exact hl.first hs
  · rw [hlist, List.getLast?_map]
    intro hlast
    obtain ⟨s, hs, hchar⟩ := Option.map_eq_some_iff.mp hlast
    rw [hblank s (List.mem_of_getLast? hs) hchar] at hs
    exact hl.last hs
  · rw [h.length_window hl ht] at hi
    rw [hlist, List.getElem?_map, h.cells, List.getElem?_eq_getElem hi]
    rfl

end Tape

namespace Machine

/-- The fresh machine on an input shows that input without the blanks at its ends.  The window of
any machine of an accepted automaton is empty exactly if the tape is blank; otherwise it shows the
tape from its first letter to its last one.  A machine created from the window has that same
window, and its tape is the old one with the first letter moved to position zero. -/
theorem window_reloads (a : Automaton) :
    (∀ text m, create a (Symbol.ofTape text) = .ok m →
      m.tape.window = String.ofList ((text.toList.dropWhile (· = Symbol.blankChar)).rdropWhile
        (· = Symbol.blankChar))) ∧
    (a.validate = .ok () → ∀ m, a.Reaches m →
      (m.tape.window = "" ↔ ∀ p, m.tape.read p = .blank) ∧
      (m.tape.window ≠ "" → ∃ p₀, m.tape.WindowFrom p₀) ∧
      ∃ m', create a (Symbol.ofTape m.tape.window) = .ok m' ∧
        m'.tape.window = m.tape.window ∧
        ∀ p₀, IsLeast {p | m.tape.read p ≠ .blank} p₀ →
          (∀ p : Int, m'.tape.cells[p]? = m.tape.cells[p₀ + p]?) ∧
          m'.tape.stored = m.tape.stored.map fun e => (e.1 - p₀, e.2)) := by
  refine ⟨fun text m hm => ?_, fun hvalid m hm => ?_⟩
  · rw [create_eq_ok hm]
    exact Tape.window_ofSymbols_ofTape text
  · have hwf := Automaton.wellFormed_of_validate hvalid
    have hsafe := safe_of_reaches hwf hm
    have hsparse := hm.sparse
    obtain ⟨p₁, l, hshows, hl⟩ := hsparse.exists_shows
    have haccepts : ∀ s ∈ l, a.accepts s := by
      intro s hs
      obtain ⟨q, rfl⟩ := hshows.read_of_mem hs
      exact hsafe.cells q
    have hletters : .letter Symbol.blankChar ∉ l :=
      fun hmem => hwf.not_accepts_blankChar (haccepts _ hmem)
    have hempty : m.tape.window = "" ↔ l = [] :=
      (hshows.window_eq_empty_iff hl hsparse).trans (hshows.eq_nil_iff hl).symm
    have hnew : (start a l).tape.Sparse := Tape.sparse_ofSymbols l
    refine ⟨hshows.window_eq_empty_iff hl hsparse, fun hne => ⟨p₁, ?_⟩, start a l, ?_, ?_, ?_⟩
    · exact hshows.windowFrom hl hsparse (fun h => hne (hempty.mpr h)) hletters
    · rw [hshows.ofTape_window hl hsparse hletters]
      exact create_of_accepts haccepts
    · rw [hshows.window hl hsparse]
      exact (Tape.shows_ofSymbols l).window hl hnew
    · intro p₀ hleast
      have hne : l ≠ [] := fun h => hleast.1 ((hshows.eq_nil_iff hl).mp h p₀)
      obtain rfl := hleast.unique (hshows.isLeast hl hne)
      have hread : ∀ p, (start a l).tape.read p = m.tape.read (p₀ + p) :=
        (Tape.shows_ofSymbols l).read_shift hshows
      exact ⟨hnew.cells_of_shift hsparse hread, hnew.stored_of_shift hsparse hread⟩

/-- The first letter has been erased, and blanks stand between and after the others. -/
theorem window_reloads_eraser :
    ∃ m m', Automaton.eraser.Reaches m ∧
      m.tape.stored = [(1, .letter 'b'), (3, .letter 'a')] ∧
      create .eraser (Symbol.ofTape m.tape.window) = .ok m' ∧ m'.tape.window = "b_a" ∧
      m'.tape.stored = [(0, .letter 'b'), (2, .letter 'a')] := by
  have hreaches : Automaton.eraser.Reaches
      ((start Automaton.eraser (Symbol.ofTape "b")).performAll
        [.run 2, .load "ab_a__", .load "x", .step]) :=
    ⟨Symbol.ofTape "b", _, _, rfl, rfl⟩
  generalize hm : (start Automaton.eraser (Symbol.ofTape "b")).performAll
    [.run 2, .load "ab_a__", .load "x", .step] = m at hreaches
  have hstored : m.tape.stored = [(1, .letter 'b'), (3, .letter 'a')] := by
    rw [← hm]
    decide +kernel
  have hwindow : m.tape.window = "b_a" := by
    rw [← hm]
    decide +kernel
  have hleast : IsLeast {p | m.tape.read p ≠ .blank} 1 := by
    constructor
    · have hread := Tape.read_of_mem_stored (t := m.tape) (e := (1, .letter 'b'))
        (by rw [hstored]; decide)
      show m.tape.read 1 ≠ .blank
      rw [hread]
      exact nofun
    · intro p hp
      have hmem := hreaches.sparse.mem_stored_iff.mpr ⟨hp, rfl⟩
      have hplace : p = 1 ∨ p = 3 := by
        rw [hstored] at hmem
        simp only [List.mem_cons, Prod.mk.injEq, List.not_mem_nil, or_false] at hmem
        exact hmem.imp And.left And.left
      omega
  have hvalid : Automaton.eraser.validate = .ok () := by decide +kernel
  obtain ⟨-, -, m', hcreate, hsame, hshift⟩ := (window_reloads .eraser).2 hvalid m hreaches
  refine ⟨m, m', hreaches, hstored, hcreate, hsame.trans hwindow, ?_⟩
  rw [(hshift 1 hleast).2, hstored]
  rfl

end Machine

end TapeLang
