import Mathlib.Data.List.DropRight
import TapeLang.Bundled
import TapeLang.Proofs.Situation

/-!
The bundled program that adds one to a binary number.

Its automaton scans to the right end of the word and then carries to the left: it turns ones into
zeros up to the first cell that is not a one, which it turns into a one.  That cell may be the blank
in front of the word, so a word of ones becomes longer to the left.  `Binary.Successor` is what this
does to a word, said without the machine, and `Binary.value_of_successor` is that it adds one.
-/

namespace TapeLang

namespace Automaton

/-- Scans to the right, then carries to the left. -/
def binaryIncrement : Automaton where
  alphabet := ['0', '1']
  initial := "increment0"
  states := .ofList
    [("increment0", .variable (.ofList
        [(.letter '0', ⟨"increment0", none, some .right⟩),
          (.letter '1', ⟨"increment0", none, some .right⟩),
          (.blank, ⟨"carry0", none, some .left⟩)])),
      ("carry0", .variable (.ofList
        [(.letter '1', ⟨"carry0", some (.letter '0'), some .left⟩),
          (.letter '0', ⟨Label.accept, some (.letter '1'), none⟩),
          (.blank, ⟨Label.accept, some (.letter '1'), none⟩)]))]

theorem compileText_binaryIncrement :
    Program.compileText Bundled.binaryIncrement = .ok binaryIncrement := by
  rw [Bundled.binaryIncrement, Bundled.compileText_lines]
  decide +kernel

end Automaton

def Binary (word : List Char) : Prop := ∀ c ∈ word, c = '0' ∨ c = '1'

instance (word : List Char) : Decidable (Binary word) := List.decidableBAll _ word

theorem Binary.forall_mem {word : List Char} (h : Binary word) : ∀ c ∈ word, c ∈ ['0', '1'] := by
  intro c hc
  rcases h c hc with rfl | rfl <;> decide

theorem Binary.blankChar_notMem {word : List Char} (h : Binary word) :
    Symbol.blankChar ∉ word := by
  intro hmem
  exact absurd (h.forall_mem _ hmem) (by decide)

namespace Binary

def value (word : List Char) : Nat := Nat.ofDigitChars 2 word 0

def trailingOnes (word : List Char) : Nat := (word.rtakeWhile (· = '1')).length

/-- The next word after one that ends with exactly `k` ones: these become zeros, and the zero before
them becomes a one.  If there is none, a one is put in front. -/
def Successor (word : List Char) (k : Nat) (next : List Char) : Prop :=
  (∃ u, word = u ++ '0' :: List.replicate k '1' ∧ next = u ++ '1' :: List.replicate k '0') ∨
    word = List.replicate k '1' ∧ next = '1' :: List.replicate k '0'

theorem exists_successor {word : List Char} (h : Binary word) :
    ∃ next, Successor word (trailingOnes word) next := by
  have hword : word.rdropWhile (· = '1') ++ word.rtakeWhile (· = '1') = word :=
    List.rdropWhile_append_rtakeWhile
  have hones : word.rtakeWhile (· = '1') = List.replicate (trailingOnes word) '1' :=
    List.eq_replicate_of_mem fun c hc => by simpa using List.mem_rtakeWhile_imp hc
  rw [hones] at hword
  rcases List.eq_nil_or_concat (word.rdropWhile (· = '1')) with hnil | ⟨u, c, hu⟩
  · rw [hnil, List.nil_append] at hword
    exact ⟨_, .inr ⟨hword.symm, rfl⟩⟩
  · have hne : c ≠ '1' := by
      have hlast := List.rdropWhile_last_not (fun c => decide (c = '1')) word
        (by rw [hu]; simp)
      simpa only [hu, List.concat_eq_append, List.getLast_append_singleton, decide_eq_true_eq]
        using hlast
    have hzero : c = '0' := by
      refine (h c ?_).resolve_right hne
      rw [← hword, hu]
      simp
    rw [hu, hzero, List.concat_eq_append, List.append_assoc, List.singleton_append] at hword
    exact ⟨_, .inl ⟨u, hword.symm, rfl⟩⟩

/-- Zeros after a larger number, and ones after the number before it. -/
theorem ofDigitChars_replicate (k start : Nat) :
    Nat.ofDigitChars 2 (List.replicate k '0') (start + 1) =
      Nat.ofDigitChars 2 (List.replicate k '1') start + 1 := by
  induction k generalizing start with
  | zero => rfl
  | succ k ih =>
    have hzero : 2 * (start + 1) + ('0'.toNat - '0'.toNat) = 2 * start + 1 + 1 := by
      rw [Nat.sub_self]
      omega
    have hone : '1'.toNat - '0'.toNat = 1 := by decide
    rw [List.replicate_succ, List.replicate_succ, Nat.ofDigitChars_cons, Nat.ofDigitChars_cons,
      hzero, hone, ih]

theorem value_of_successor {word next : List Char} {k : Nat} (h : Successor word k next) :
    value next = value word + 1 := by
  have hzero : '0'.toNat - '0'.toNat = 0 := by decide
  have hone : '1'.toNat - '0'.toNat = 1 := by decide
  rcases h with ⟨u, rfl, rfl⟩ | ⟨rfl, rfl⟩
  · rw [value, value, Nat.ofDigitChars_append, Nat.ofDigitChars_append, Nat.ofDigitChars_cons,
      Nat.ofDigitChars_cons, hzero, hone, ofDigitChars_replicate]
    rfl
  · rw [value, value, Nat.ofDigitChars_cons, hone, ofDigitChars_replicate]

end Binary

/-! ## The computation -/

namespace Automaton

theorem binaryIncrement_scans {word : List Char} (h : Binary word) :
    binaryIncrement.Leads word.length ⟨"increment0", 0, [], word.map .letter⟩
      ⟨"increment0", 0, word.map .letter, []⟩ := by
  have hrule : ∀ c ∈ word,
      binaryIncrement.Rule "increment0" (.letter c) ⟨"increment0", none, some .right⟩ := by
    intro c hc
    rcases h c hc with rfl | rfl <;> decide +kernel
  have hscan := leads_scanWord (p := 0) (w := []) hrule
  rwa [List.append_nil] at hscan

/-- At the right end of a word the automaton turns back, and carries over the ones to the symbol
before them. -/
theorem Leads.carry {n k : Nat} {c : Situation} {p : Int} {u : List Symbol} {x : Symbol}
    (hx : x = .blank ∨ x = .letter '0')
    (h : binaryIncrement.Leads n c
      ⟨"increment0", p, u ++ x :: List.replicate k (.letter '1'), []⟩) :
    binaryIncrement.Leads (n + k + 2) c
      ⟨Label.accept, p, u, .letter '1' :: List.replicate k (.letter '0')⟩ := by
  have hturn : binaryIncrement.Rule "increment0" .blank ⟨"carry0", none, some .left⟩ := by
    decide +kernel
  have hone : ∀ s ∈ List.replicate k (Symbol.letter '1'),
      binaryIncrement.Rule "carry0" s ⟨"carry0", some (.letter '0'), some .left⟩ := by
    intro s hs
    rw [List.eq_of_mem_replicate hs]
    decide +kernel
  have hlast : binaryIncrement.Rule "carry0" x ⟨Label.accept, some (.letter '1'), none⟩ := by
    rcases hx with rfl | rfl <;> decide +kernel
  have hcarry := (h.padRight.trans (leads_sweepLeft hturn hone)).trans (leads_stay hlast)
  rw [List.map_replicate, List.length_replicate] at hcarry
  exact hcarry.dropRight

theorem binaryIncrement_leads {word next : List Char} (h : Binary word) {k : Nat}
    (hnext : Binary.Successor word k next) :
    ∃ p u v, binaryIncrement.Leads (word.length + k + 2)
        ⟨"increment0", 0, [], word.map .letter⟩ ⟨Label.accept, p, u, v⟩ ∧
      u ++ v = next.map .letter := by
  have hscan := binaryIncrement_scans h
  rcases hnext with ⟨u, hword, hnext⟩ | ⟨hword, hnext⟩
  · have hcells : word.map Symbol.letter =
        u.map .letter ++ .letter '0' :: List.replicate k (.letter '1') := by
      rw [hword, List.map_append, List.map_cons, List.map_replicate]
    rw [hcells] at hscan ⊢
    refine ⟨_, _, _, Leads.carry (.inr rfl) hscan, ?_⟩
    rw [hnext, List.map_append, List.map_cons, List.map_replicate]
  · have hcells : word.map Symbol.letter = List.replicate k (.letter '1') := by
      rw [hword, List.map_replicate]
    rw [hcells] at hscan ⊢
    -- The carry ends on the blank in front of the word.
    have hpad := Leads.padLeft (p := -1) hscan
    refine ⟨_, _, _, Leads.carry (u := []) (.inl rfl) hpad, ?_⟩
    rw [hnext, List.map_cons, List.map_replicate]
    rfl

end Automaton

/-- The bundled program adds one to every binary word.  With `k` ones at the end of a word of length
`n` it accepts after exactly `n + k + 2` steps, and a run with a smaller budget uses it up. -/
theorem Bundled.binaryIncrement_adds_one :
    ∃ a, Program.compileText Bundled.binaryIncrement = .ok a ∧
      ∀ word : String, Binary word.toList →
        ∃ next : String,
          Binary.Successor word.toList (Binary.trailingOnes word.toList) next.toList ∧
          a.HaltsIn word (word.length + Binary.trailingOnes word.toList + 2) .accept next ∧
          Binary.value next.toList = Binary.value word.toList + 1 := by
  refine ⟨_, Automaton.compileText_binaryIncrement, fun word hword => ?_⟩
  obtain ⟨next, hnext⟩ := hword.exists_successor
  obtain ⟨p, u, v, hleads, hcells⟩ := Automaton.binaryIncrement_leads hword hnext
  have hyes : Label.accept = Label.verdict true := rfl
  rw [← String.toList_ofList (l := next)] at hnext hcells
  exact ⟨String.ofList next, hnext,
    hleads.haltsIn hword.forall_mem hword.blankChar_notMem hyes hcells,
    Binary.value_of_successor hnext⟩

theorem Bundled.binaryIncrement_eleven :
    ∃ a next, Program.compileText Bundled.binaryIncrement = .ok a ∧ Binary "1011".toList ∧
      a.run "1011" 8 = .ok ⟨.accept, next, 8⟩ ∧ Binary.value next.toList = 12 ∧
      ∃ seen, a.run "1011" 7 = .ok ⟨.timeout, seen, 7⟩ := by
  obtain ⟨a, ha, hall⟩ := Bundled.binaryIncrement_adds_one
  have hbinary : Binary "1011".toList := by decide
  have htime : "1011".length + Binary.trailingOnes "1011".toList + 2 = 8 := by decide
  obtain ⟨next, -, hhalts, hvalue⟩ := hall "1011" hbinary
  rw [htime] at hhalts
  exact ⟨a, next, ha, hbinary, hhalts.enough 8 (Nat.le_refl 8), hvalue, hhalts.short 7 (by decide)⟩

end TapeLang
