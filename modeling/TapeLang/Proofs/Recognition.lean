import Mathlib.Algebra.Group.Nat.Even
import TapeLang.Proofs.Increment

/-!
The other bundled programs.

Three of them answer a question about a word and leave it as it was, and one erases it.  Each is an
automaton of one or two states, and what it does on a word is put together from a sweep and the
steps after it.  The program about unary words has no sweep: its two states take turns, so its
computation is an induction over the word with the answer depending on the state it starts from.
-/

namespace TapeLang

namespace Automaton

/-- Goes to the right end of a word and answers by the last symbol. -/
def divisibleByTwo : Automaton where
  alphabet := ['0', '1']
  initial := "isDiv20"
  states := .ofList
    [("isDiv20", .variable (.ofList
        [(.letter '0', ⟨"isDiv20", none, some .right⟩),
          (.letter '1', ⟨"isDiv20", none, some .right⟩),
          (.blank, ⟨"isDiv21", none, some .left⟩)])),
      ("isDiv21", .variable (.ofList
        [(.letter '0', ⟨Label.accept, none, none⟩),
          (.letter '1', ⟨Label.reject, none, none⟩),
          (.blank, ⟨Label.reject, none, none⟩)]))]

theorem compileText_divisibleByTwo :
    Program.compileText Bundled.divisibleByTwo = .ok divisibleByTwo := by
  rw [Bundled.divisibleByTwo, Bundled.compileText_lines]
  decide +kernel

/-- At the right end the automaton turns back and answers by the symbol there. -/
theorem Leads.answer {n : Nat} {c : Situation} {p : Int} {u : List Symbol} {x : Symbol}
    (hx : x = .blank ∨ x = .letter '0' ∨ x = .letter '1')
    (h : divisibleByTwo.Leads n c ⟨"isDiv20", p, u ++ [x], []⟩) :
    divisibleByTwo.Leads (n + 2) c ⟨Label.verdict (x = .letter '0'), p, u, [x]⟩ := by
  have hturn : divisibleByTwo.Rule "isDiv20" .blank ⟨"isDiv21", none, some .left⟩ := by
    decide +kernel
  have hanswer : divisibleByTwo.Rule "isDiv21" x
      ⟨Label.verdict (x = .letter '0'), none, none⟩ := by
    rcases hx with rfl | rfl | rfl <;> decide +kernel
  have hall := (h.padRight.trans (leads_left hturn)).trans (leads_stay hanswer)
  exact Leads.dropRight (v := [x]) hall

theorem divisibleByTwo_leads {word : List Char} (h : Binary word) :
    ∃ p u v, divisibleByTwo.Leads (word.length + 2) ⟨"isDiv20", 0, [], word.map .letter⟩
        ⟨Label.verdict (word.getLast? = some '0'), p, u, v⟩ ∧
      u ++ v = word.map .letter ∧ (p = 0 ∨ word = []) := by
  have hrule : ∀ c ∈ word,
      divisibleByTwo.Rule "isDiv20" (.letter c) ⟨"isDiv20", none, some .right⟩ := by
    intro c hc
    rcases h c hc with rfl | rfl <;> decide +kernel
  have hscan := leads_scanWord (p := 0) (w := []) hrule
  rw [List.append_nil] at hscan
  rcases List.eq_nil_or_concat word with rfl | ⟨u, c, rfl⟩
  · -- The head is to the left of the empty word, on a blank.
    have hpad := Leads.padLeft (p := -1) hscan
    have hall := Leads.answer (u := []) (.inl rfl) hpad
    exact ⟨_, _, [], Leads.dropRight (v := []) hall, rfl, .inr rfl⟩
  · rw [List.concat_eq_append] at h hscan ⊢
    have hc := h c (List.mem_append_right _ (List.mem_singleton_self c))
    have hcells : (u ++ [c]).map Symbol.letter = u.map .letter ++ [.letter c] := by
      rw [List.map_append, List.map_singleton]
    rw [hcells] at hscan ⊢
    have hall := hscan.answer (.inr (by simpa using hc))
    have hlast : (Symbol.letter c = .letter '0') = ((u ++ [c]).getLast? = some '0') := by
      simp
    simp only [hlast] at hall
    exact ⟨0, _, _, hall, rfl, .inl rfl⟩

/-- Two states that take turns on ones. -/
def unaryEven : Automaton where
  alphabet := ['1']
  initial := "even0"
  states := .ofList
    [("even0", .variable (.ofList
        [(.letter '1', ⟨"odd0", none, some .right⟩), (.blank, ⟨Label.accept, none, none⟩)])),
      ("odd0", .variable (.ofList
        [(.letter '1', ⟨"even0", none, some .right⟩), (.blank, ⟨Label.reject, none, none⟩)]))]

theorem compileText_unaryEven : Program.compileText Bundled.unaryEven = .ok unaryEven := by
  rw [Bundled.unaryEven, Bundled.compileText_lines]
  decide +kernel

def parityLabel (even : Bool) : Label := bif even then "even0" else "odd0"

theorem unaryEven_leads (n : Nat) (even : Bool) (p : Int) (u : List Symbol) :
    unaryEven.Leads (n + 1) ⟨parityLabel even, p, u, List.replicate n (.letter '1')⟩
      ⟨Label.verdict (even = decide (Even n)), p, u ++ List.replicate n (.letter '1'), []⟩ := by
  induction n generalizing even u with
  | zero =>
    have hend : unaryEven.Rule (parityLabel even) .blank ⟨Label.verdict even, none, none⟩ := by
      cases even <;> decide +kernel
    have hall := ((leads_refl ⟨parityLabel even, p, u, []⟩).padRight.trans (leads_stay hend))
    have hyes : decide (even = decide (Even 0)) = even := by cases even <;> decide
    rw [hyes, List.replicate_zero, List.append_nil]
    exact Leads.dropRight (v := []) hall
  | succ n ih =>
    have hone : unaryEven.Rule (parityLabel even) (.letter '1')
        ⟨parityLabel !even, none, some .right⟩ := by
      cases even <;> decide +kernel
    have hyes : decide (even = decide (Even (n + 1))) = decide ((!even) = decide (Even n)) := by
      simp only [Nat.even_add_one]
      cases even <;> by_cases hn : Even n <;> simp [hn]
    have hall := (leads_right hone).trans (ih (!even) (u ++ [.letter '1']))
    rw [hyes, List.replicate_succ, List.append_cons, Nat.add_comm]
    exact hall

def onlyOnes : Automaton where
  alphabet := ['0', '1']
  initial := "main0"
  states := .ofList
    [("main0", .variable (.ofList
        [(.letter '1', ⟨"main0", none, some .right⟩),
          (.blank, ⟨Label.accept, none, none⟩),
          (.letter '0', ⟨Label.reject, none, none⟩)]))]

theorem compileText_onlyOnes : Program.compileText Bundled.onlyOnes = .ok onlyOnes := by
  rw [Bundled.onlyOnes, Bundled.compileText_lines]
  decide +kernel

theorem onlyOnes_scans {ones : List Char} (h : ∀ c ∈ ones, c = '1') (rest : List Symbol) :
    onlyOnes.Leads ones.length ⟨"main0", 0, [], ones.map .letter ++ rest⟩
      ⟨"main0", 0, ones.map .letter, rest⟩ := by
  refine leads_scanWord fun c hc => ?_
  rw [h c hc]
  decide +kernel

theorem onlyOnes_accepts {word : List Char} (h : ∀ c ∈ word, c = '1') :
    onlyOnes.Leads (word.length + 1) ⟨"main0", 0, [], word.map .letter⟩
      ⟨Label.accept, 0, word.map .letter, []⟩ := by
  have hscan := onlyOnes_scans h []
  rw [List.append_nil] at hscan
  have hend : onlyOnes.Rule "main0" .blank ⟨Label.accept, none, none⟩ := by decide +kernel
  exact Leads.dropRight (v := []) (hscan.padRight.trans (leads_stay hend))

theorem onlyOnes_rejects {ones : List Char} (h : ∀ c ∈ ones, c = '1') (rest : List Char) :
    onlyOnes.Leads (ones.length + 1) ⟨"main0", 0, [], (ones ++ '0' :: rest).map .letter⟩
      ⟨Label.reject, 0, ones.map .letter, .letter '0' :: rest.map .letter⟩ := by
  have hscan := onlyOnes_scans h (.letter '0' :: rest.map .letter)
  have hzero : onlyOnes.Rule "main0" (.letter '0') ⟨Label.reject, none, none⟩ := by
    decide +kernel
  rw [List.map_append, List.map_cons]
  exact hscan.trans (leads_stay hzero)

def erase : Automaton where
  alphabet := ['a', 'b']
  initial := "erase0"
  states := .ofList
    [("erase0", .variable (.ofList
        [(.letter 'a', ⟨"erase0", some .blank, some .right⟩),
          (.letter 'b', ⟨"erase0", some .blank, some .right⟩),
          (.blank, ⟨Label.accept, none, none⟩)]))]

theorem compileText_erase : Program.compileText Bundled.erase = .ok erase := by
  rw [Bundled.erase, Bundled.compileText_lines]
  decide +kernel

/-- Blanks to the left of the head can all be left out. -/
theorem Leads.dropBlanks {a : Automaton} {n k : Nat} {c : Situation} {l : Label} {p : Int}
    {v : List Symbol} (h : a.Leads n c ⟨l, p, List.replicate k .blank, v⟩) :
    a.Leads n c ⟨l, p + k, [], v⟩ := by
  induction k generalizing p with
  | zero => simpa using h
  | succ k ih =>
    rw [List.replicate_succ] at h
    have hrest := ih h.dropLeft
    rwa [show p + 1 + (k : Int) = p + (k + 1 : Nat) by omega] at hrest

theorem erase_leads {word : List Char} (h : ∀ c ∈ word, c = 'a' ∨ c = 'b') :
    erase.Leads (word.length + 1) ⟨"erase0", 0, [], word.map .letter⟩
      ⟨Label.accept, word.length, [], []⟩ := by
  have hrule : ∀ c ∈ word,
      erase.Rule "erase0" (.letter c) ⟨"erase0", some .blank, some .right⟩ := by
    intro c hc
    rcases h c hc with rfl | rfl <;> decide +kernel
  have hend : erase.Rule "erase0" .blank ⟨Label.accept, none, none⟩ := by decide +kernel
  have hsweep := leads_sweepRight (p := 0) (u := []) (w := []) (List.forall_mem_map.mpr hrule)
  have hblanks : (word.map Symbol.letter).map (some Symbol.blank).getD =
      List.replicate word.length .blank := by
    rw [List.map_map]
    exact List.map_const' ..
  rw [List.append_nil, List.nil_append, List.length_map, hblanks] at hsweep
  have hall := Leads.dropRight (v := []) (hsweep.padRight.trans (leads_stay hend))
  have hdropped := hall.dropBlanks
  rwa [Int.zero_add] at hdropped

end Automaton

/-! ## What their runs show -/

namespace Automaton

theorem divisibleByTwo_halts {word : String} (h : Binary word.toList) :
    divisibleByTwo.HaltsIn word (word.length + 2) (.verdict (word.toList.getLast? = some '0'))
      word := by
  obtain ⟨p, u, v, hleads, hcells, -⟩ := divisibleByTwo_leads h
  exact hleads.haltsIn h.forall_mem h.blankChar_notMem rfl hcells

/-- The tape is read and not written. -/
theorem cells_run_divisibleByTwo {word : String} (h : Binary word.toList) {m : Machine}
    (hm : Machine.create divisibleByTwo (Symbol.ofTape word) = .ok m) {budget : Nat}
    (hbudget : word.length + 2 ≤ budget) : (m.run budget).2.tape.cells = m.tape.cells := by
  obtain ⟨p, u, v, hleads, hcells, hp⟩ := divisibleByTwo_leads h
  have hstands := hleads.stands_run rfl hbudget
  have hshows := hstands.shows
  have hzero : ((Machine.start divisibleByTwo (word.toList.map .letter)).run budget).2.tape.Shows 0
      (word.toList.map .letter) := by
    rw [hcells] at hshows
    rcases hp with rfl | hnil
    · exact hshows
    · rw [hnil] at hshows ⊢
      exact hshows.of_nil 0
  rw [Machine.create_eq_ok hm, ofTape_eq_map_letter h.blankChar_notMem]
  refine hstands.sparse.cells_ext (Tape.sparse_ofSymbols _) fun q => ?_
  rw [hzero.read_eq]
  exact ((Tape.shows_ofSymbols _).read_eq q).symm

theorem unaryEven_halts (n : Nat) :
    unaryEven.HaltsIn (String.ofList (List.replicate n '1')) (n + 1) (.verdict (Even n))
      (String.ofList (List.replicate n '1')) := by
  have hone : ∀ c ∈ (String.ofList (List.replicate n '1')).toList, c = '1' := by
    intro c hc
    rw [String.toList_ofList] at hc
    exact List.eq_of_mem_replicate hc
  have hleads := unaryEven_leads n true 0 []
  have hyes : decide (true = decide (Even n)) = decide (Even n) := by simp
  rw [hyes, ← List.map_replicate, ← String.toList_ofList (l := List.replicate n '1'),
    List.nil_append] at hleads
  refine hleads.haltsIn (fun c hc => ?_) (fun hblank => ?_) rfl (List.append_nil _)
  · rw [hone c hc]
    decide
  · exact absurd (hone _ hblank) (by decide)

theorem onlyOnes_halts_accept {word : String} (h : Binary word.toList)
    (hzero : '0' ∉ word.toList) :
    onlyOnes.HaltsIn word (word.length + 1) .accept word := by
  have hone : ∀ c ∈ word.toList, c = '1' := by
    intro c hc
    exact (h c hc).resolve_left fun heq => hzero (heq ▸ hc)
  have hyes : Label.accept = Label.verdict true := rfl
  exact (onlyOnes_accepts hone).haltsIn h.forall_mem h.blankChar_notMem hyes (List.append_nil _)

theorem onlyOnes_halts_reject {word : String} (h : Binary word.toList)
    (hzero : '0' ∈ word.toList) :
    onlyOnes.HaltsIn word (word.toList.idxOf '0' + 1) .reject word := by
  obtain ⟨ones, rest, hword, hnot⟩ := List.eq_append_cons_of_mem hzero
  have hone : ∀ c ∈ ones, c = '1' := by
    intro c hc
    have hbinary := h c (by rw [hword]; exact List.mem_append_left _ hc)
    exact hbinary.resolve_left fun heq => hnot (heq ▸ hc)
  have hindex : word.toList.idxOf '0' = ones.length := by
    rw [hword, List.idxOf_append_of_notMem hnot, List.idxOf_cons_self, Nat.add_zero]
  have hleads := onlyOnes_rejects hone rest
  rw [← hword, ← hindex] at hleads
  have hno : Label.reject = Label.verdict false := rfl
  have hcells : ones.map Symbol.letter ++ .letter '0' :: rest.map .letter =
      word.toList.map .letter := by
    rw [hword, List.map_append, List.map_cons]
  exact hleads.haltsIn h.forall_mem h.blankChar_notMem hno hcells

theorem erase_halts {word : String} (h : ∀ c ∈ word.toList, c = 'a' ∨ c = 'b') :
    erase.HaltsIn word (word.length + 1) .accept "" := by
  have hyes : Label.accept = Label.verdict true := rfl
  refine (erase_leads h).haltsIn (fun c hc => ?_) (fun hblank => ?_) hyes rfl
  · rcases h c hc with rfl | rfl <;> decide
  · exact absurd (h _ hblank) (by decide)

end Automaton

/-- What the other bundled programs do on every word over their alphabets, and in exactly how many
steps.  `Divisible by 2` accepts the words that end with a zero and leaves the tape as it was;
`Unary even` accepts the words of even length; `Only ones` goes as far as the first zero, if there
is one; `Erase` accepts and leaves a blank tape.  A run with a smaller budget uses it up. -/
theorem Bundled.texts_halt :
    (∃ a, Program.compileText Bundled.divisibleByTwo = .ok a ∧
      ∀ word : String, Binary word.toList →
        a.HaltsIn word (word.length + 2) (.verdict (word.toList.getLast? = some '0')) word ∧
        ∀ m budget, Machine.create a (Symbol.ofTape word) = .ok m → word.length + 2 ≤ budget →
          (m.run budget).2.tape.cells = m.tape.cells) ∧
    (∃ a, Program.compileText Bundled.unaryEven = .ok a ∧
      ∀ n, a.HaltsIn (String.ofList (List.replicate n '1')) (n + 1) (.verdict (Even n))
        (String.ofList (List.replicate n '1'))) ∧
    (∃ a, Program.compileText Bundled.onlyOnes = .ok a ∧
      ∀ word : String, Binary word.toList →
        ('0' ∉ word.toList → a.HaltsIn word (word.length + 1) .accept word) ∧
        ('0' ∈ word.toList → a.HaltsIn word (word.toList.idxOf '0' + 1) .reject word)) ∧
    (∃ a, Program.compileText Bundled.erase = .ok a ∧
      ∀ word : String, (∀ c ∈ word.toList, c = 'a' ∨ c = 'b') →
        a.HaltsIn word (word.length + 1) .accept "") := by
  refine ⟨⟨_, Automaton.compileText_divisibleByTwo, fun word hword => ⟨?_, ?_⟩⟩,
    ⟨_, Automaton.compileText_unaryEven, Automaton.unaryEven_halts⟩,
    ⟨_, Automaton.compileText_onlyOnes, fun word hword => ⟨?_, ?_⟩⟩,
    ⟨_, Automaton.compileText_erase, fun word hword => Automaton.erase_halts hword⟩⟩
  · exact Automaton.divisibleByTwo_halts hword
  · intro m budget hm hbudget
    exact Automaton.cells_run_divisibleByTwo hword hm hbudget
  · exact Automaton.onlyOnes_halts_accept hword
  · exact Automaton.onlyOnes_halts_reject hword

theorem Bundled.texts_halt_samples :
    (∃ a, Program.compileText Bundled.divisibleByTwo = .ok a ∧ Binary "110".toList ∧
      a.run "110" 5 = .ok ⟨.accept, "110", 5⟩ ∧ a.run "" 9 = .ok ⟨.reject, "", 2⟩) ∧
    (∃ a, Program.compileText Bundled.onlyOnes = .ok a ∧ Binary "1101".toList ∧
      a.run "1101" 3 = .ok ⟨.reject, "1101", 3⟩ ∧ a.run "11" 7 = .ok ⟨.accept, "11", 3⟩) ∧
    (∃ a, Program.compileText Bundled.erase = .ok a ∧
      a.run "abba" 5 = .ok ⟨.accept, "", 5⟩ ∧
      ∃ seen, a.run "abba" 4 = .ok ⟨.timeout, seen, 4⟩) := by
  obtain ⟨⟨a, ha, htwo⟩, -, ⟨b, hb, hones⟩, ⟨c, hc, herase⟩⟩ := Bundled.texts_halt
  have hab : ∀ d ∈ "abba".toList, d = 'a' ∨ d = 'b' := by simp
  refine ⟨⟨a, ha, by decide, ?_, ?_⟩, ⟨b, hb, by decide, ?_, ?_⟩, ⟨c, hc, ?_, ?_⟩⟩
  · exact (htwo "110" (by decide)).1.enough 5 (by decide)
  · exact (htwo "" (by decide)).1.enough 9 (by decide)
  · exact ((hones "1101" (by decide)).2 (by decide)).enough 3 (by decide)
  · exact ((hones "11" (by decide)).1 (by decide)).enough 7 (by decide)
  · exact (herase "abba" hab).enough 5 (by decide)
  · exact (herase "abba" hab).short 4 (by decide)

end TapeLang
