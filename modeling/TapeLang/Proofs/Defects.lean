import Mathlib.Data.List.Sort
import TapeLang.Proofs.ByteOrder
import TapeLang.Proofs.Faults
import TapeLang.Proofs.Validity

/-!
The defects of an automaton and their order.

A defect has an address, as the faults of a program have: letters come first, from left to right,
then the initial label, then all targets that are not known, and then the states in the order of
their labels, with what they match before what they write.  The validator accepts the automata
without defects and reports of any other one the defect with the least address
(`Automaton.lists_problems`).
-/

namespace TapeLang

namespace Automaton

/-- The label of a machine that has halted, or of a state. -/
def Knows (a : Automaton) (l : Label) : Prop :=
  l = Label.accept ∨ l = Label.reject ∨ ∃ state, a.states.get? l = some state

def LeadsTo (a : Automaton) (l : Label) : Prop := ∃ t ∈ a.transitions, t.next = l

/-- All targets that are not known, in the order of their bytes, so that each is there once. -/
structure Unknown (a : Automaton) (labels : List Label) : Prop where
  sorted : labels.Pairwise fun k l => Text.bytes k < Text.bytes l
  mem_iff : ∀ l, l ∈ labels ↔ a.LeadsTo l ∧ ¬ a.Knows l

/-- A state matches symbols first and writes symbols then. -/
inductive StateDefect (a : Automaton) (label : Label) (state : State) : Address → Problem → Prop
  | matched {k s} (hs : state.matched[k]? = some s) (h : ¬ a.accepts s) :
    StateDefect a label state [0, k] (.matchesOutside label s)
  | written {k t s} (ht : state.transitions[k]? = some t) (hw : t.write = some s)
    (h : ¬ a.accepts s) : StateDefect a label state [1, k] (.writesOutside label s)

/-- The entries of a table stand in the order of their labels. -/
inductive Defect (a : Automaton) : Address → Problem → Prop
  | letter {i c} (hc : a.alphabet[i]? = some c) (h : ¬ isLetter c) :
    Defect a [0, i, 0] (.badLetter c)
  | repetition {i c} (hc : a.alphabet[i]? = some c) (h : c ∈ a.alphabet.take i) :
    Defect a [0, i, 1] (.repeatedLetter c)
  | initial (h : ¬ a.Knows a.initial) : Defect a [1] (.undefinedInitial a.initial)
  | targets {labels} (h : a.Unknown labels) (hne : labels ≠ []) :
    Defect a [2] (.undefinedTargets labels)
  | state {i label state b p} (he : a.states.entries[i]? = some (label, state))
    (h : a.StateDefect label state b p) : Defect a (3 :: i :: b) p

end Automaton

theorem Automaton.lists_letterProblems {seen earlier : List Char}
    (h : ∀ c, c ∈ seen ↔ c ∈ earlier) (cs : List Char) :
    Lists (Each (fun front c b p => b = [0] ∧ ¬ isLetter c ∧ p = .badLetter c ∨
        b = [1] ∧ c ∈ earlier ++ front ∧ p = .repeatedLetter c) cs)
      (letterProblems seen cs) := by
  induction cs generalizing seen earlier with
  | nil => exact lists_nil each_nil
  | cons c cs ih =>
    have hseen : ∀ d, d ∈ c :: seen ↔ d ∈ earlier ++ [c] := by
      intro d
      rw [List.mem_cons, List.mem_append, List.mem_singleton, h, or_comm]
    rw [letterProblems, ← ite_not]
    refine lists_each_cons ((lists_if [0] _).append (lists_if [1] _) ?_ ?_) ?_
    · rintro _ _ _ _ ⟨rfl, -⟩ ⟨rfl, -⟩
      exact Address.before_of_lt Nat.zero_lt_one [] []
    · simp [h]
    · simpa using ih hseen

theorem Table.keys_sorted {κ ν : Type} [LT κ] (t : Table κ ν) : t.keys.Pairwise (· < ·) :=
  List.pairwise_map.mpr t.sorted

namespace Automaton

variable {a : Automaton}

theorem defines_iff_knows {l : Label} : a.defines l ↔ a.Knows l := by
  rw [defines, Knows, ← Table.contains_iff]
  simp [Label.isTerminal, or_assoc]

theorem mem_undefinedTargets {l : Label} :
    l ∈ a.undefinedTargets ↔ a.LeadsTo l ∧ ¬ a.Knows l := by
  rw [undefinedTargets, Table.mem_keys_ofList_iff, List.map_map, ← defines_iff_knows]
  simp [LeadsTo]

theorem unknown_undefinedTargets : a.Unknown a.undefinedTargets :=
  ⟨(Table.keys_sorted _).imp Text.bytes_lt_iff.mpr, fun _ => mem_undefinedTargets⟩

/-- There is one way to list the unknown targets. -/
theorem Unknown.eq {labels : List Label} (h : a.Unknown labels) : labels = a.undefinedTargets := by
  have hsorted : labels.Pairwise (· < ·) := h.sorted.imp Text.bytes_lt_iff.mp
  refine hsorted.eq_of_mem_iff (Table.keys_sorted _) fun l => ?_
  rw [h.mem_iff]
  exact mem_undefinedTargets.symm

theorem lists_targets :
    Lists (fun b p => b = [2] ∧ ∃ labels, a.Unknown labels ∧ labels ≠ [] ∧
        p = Problem.undefinedTargets labels)
      (match a.undefinedTargets with
        | [] => []
        | labels => [.undefinedTargets labels]) := by
  have hunknown := unknown_undefinedTargets (a := a)
  have heq : ∀ labels, a.Unknown labels → labels = a.undefinedTargets := fun _ h => h.eq
  cases hu : a.undefinedTargets with
  | nil =>
    refine lists_nil fun h => ?_
    obtain ⟨-, labels, hlabels, hne, -⟩ := h
    exact hne ((heq labels hlabels).trans hu)
  | cons l ls =>
    rw [hu] at hunknown heq
    refine lists_singleton (a := [2]) ⟨fun h => ?_, fun h => ?_⟩
    · obtain ⟨rfl, labels, hlabels, -, rfl⟩ := h
      exact ⟨rfl, congrArg _ (heq labels hlabels)⟩
    · obtain ⟨rfl, rfl⟩ := h
      exact ⟨rfl, l :: ls, hunknown, List.cons_ne_nil l ls, rfl⟩

theorem lists_matched (label : Label) (symbols : List Symbol) :
    Lists (Each (fun _ s b p => b = [] ∧ ¬ a.accepts s ∧ p = Problem.matchesOutside label s)
        symbols)
      ((symbols.filter fun s => !a.accepts s).map (.matchesOutside label)) := by
  have hreports : (symbols.filter fun s => !a.accepts s).map (Problem.matchesOutside label) =
      symbols.flatMap fun s => if ¬ a.accepts s then [.matchesOutside label s] else [] := by
    induction symbols with
    | nil => rfl
    | cons s symbols ih => cases hs : a.accepts s <;> simp [hs, ih]
  rw [hreports]
  exact lists_flatMap (fun s => lists_if [] (Problem.matchesOutside label s)) symbols

theorem lists_written (label : Label) (transitions : List Transition) :
    Lists (Each (fun _ t b p => b = [] ∧ ∃ s, t.write = some s ∧ ¬ a.accepts s ∧
        p = Problem.writesOutside label s) transitions)
      (((transitions.filterMap (·.write)).filter fun s => !a.accepts s).map
        (.writesOutside label)) := by
  rw [List.filterMap_eq_flatMap_toList, List.filter_flatMap, List.map_flatMap]
  refine lists_flatMap (fun t => ?_) transitions
  cases hw : t.write with
  | none => exact lists_nil (by simp)
  | some s =>
    have hreports : ((some s).toList.filter fun s => !a.accepts s).map
        (Problem.writesOutside label) =
        if ¬ a.accepts s then [.writesOutside label s] else [] := by
      cases hs : a.accepts s <;> simp [hs]
    rw [hreports]
    exact (lists_if [] (Problem.writesOutside label s)).congr (by simp)

theorem lists_stateProblems (label : Label) (state : State) :
    Lists (a.StateDefect label state) (a.stateProblems label state) := by
  rw [stateProblems_eq]
  refine Lists.append ((lists_matched label state.matched).map (fun h => h.cons 0) Iff.rfl)
    ((lists_written label state.transitions).map (fun h => h.cons 1) Iff.rfl) ?_
    ⟨fun h => ?_, ?_⟩
  · rintro _ _ _ _ ⟨b, rfl, -⟩ ⟨c, rfl, -⟩
    exact Address.before_of_lt Nat.zero_lt_one b c
  · cases h with
    | matched hs h => exact .inl ⟨_, rfl, _, _, _, hs, rfl, rfl, h, rfl⟩
    | written ht hw h => exact .inr ⟨_, rfl, _, _, _, ht, rfl, rfl, _, hw, h, rfl⟩
  · rintro (⟨_, rfl, k, s, _, hs, rfl, rfl, h, rfl⟩ |
      ⟨_, rfl, k, t, _, ht, rfl, rfl, s, hw, h, rfl⟩)
    · exact .matched hs h
    · exact .written ht hw h

/-! ## All defects in order -/

theorem lists_problems (a : Automaton) : Lists a.Defect a.problems := by
  have hletters := lists_letterProblems (fun c => (Iff.rfl : c ∈ [] ↔ c ∈ [])) a.alphabet
  have hinitial := lists_if (c := ¬ a.defines a.initial) [1] (Problem.undefinedInitial a.initial)
  have hstates := lists_flatMap
    (fun e : Label × State => a.lists_stateProblems e.1 e.2) a.states.entries
  rw [ite_not] at hinitial
  refine Lists.append (Lists.append (Lists.append (hletters.map (fun h => h.cons 0) Iff.rfl)
    hinitial ?_ Iff.rfl) lists_targets ?_ Iff.rfl) (hstates.map (fun h => h.cons 3) Iff.rfl) ?_
    ⟨fun h => ?_, ?_⟩
  · rintro _ _ _ _ ⟨b, rfl, -⟩ ⟨rfl, -⟩
    exact Address.before_of_lt Nat.zero_lt_one b []
  · rintro _ _ _ _ (⟨b, rfl, -⟩ | ⟨rfl, -⟩) ⟨rfl, -⟩
    · exact Address.before_of_lt Nat.two_pos b []
    · exact Address.before_of_lt Nat.one_lt_two [] []
  · rintro _ _ _ _ ((⟨b, rfl, -⟩ | ⟨rfl, -⟩) | ⟨rfl, -⟩) ⟨c, rfl, -⟩
    · exact Address.before_of_lt (by decide) b c
    · exact Address.before_of_lt (by decide) [] c
    · exact Address.before_of_lt (by decide) [] c
  · rw [defines_iff_knows]
    cases h with
    | letter hc h => exact .inl (.inl (.inl ⟨_, rfl, _, _, _, hc, rfl, .inl ⟨rfl, h, rfl⟩⟩))
    | repetition hc h => exact .inl (.inl (.inl ⟨_, rfl, _, _, _, hc, rfl, .inr ⟨rfl, h, rfl⟩⟩))
    | initial h => exact .inl (.inl (.inr ⟨rfl, h, rfl⟩))
    | targets h hne => exact .inl (.inr ⟨rfl, _, h, hne, rfl⟩)
    | state he h => exact .inr ⟨_, rfl, _, _, _, he, rfl, h⟩
  · rw [defines_iff_knows]
    rintro (((⟨_, rfl, i, c, _, hc, rfl, ⟨rfl, h, rfl⟩ | ⟨rfl, h, rfl⟩⟩ | ⟨rfl, h, rfl⟩) |
      ⟨rfl, labels, h, hne, rfl⟩) | ⟨_, rfl, i, e, b, he, rfl, h⟩)
    · exact .letter hc h
    · exact .repetition hc h
    · exact .initial h
    · exact .targets h hne
    · exact .state he h

theorem validate_eq_ok_iff : a.validate = .ok () ↔ a.WellFormed :=
  ⟨wellFormed_of_validate, validate_of_wellFormed⟩

theorem validate_eq_error_iff {p : Problem} :
    a.validate = .error p ↔ a.problems.head? = some p := by
  rw [validate]
  cases a.problems with
  | nil => simp
  | cons q problems => rw [List.head?_cons, Except.error.injEq, Option.some.injEq]

/-- Well-formedness with the transitions of each state apart. -/
theorem wellFormed_iff : a.WellFormed ↔
    (∀ c ∈ a.alphabet, isLetter c) ∧ a.alphabet.Nodup ∧ a.Knows a.initial ∧
      (∀ l, a.LeadsTo l → a.Knows l) ∧
      ∀ label state, a.states.get? label = some state → (∀ s ∈ state.matched, a.accepts s) ∧
        ∀ t ∈ state.transitions, ∀ s ∈ t.write, a.accepts s := by
  constructor
  · intro h
    refine ⟨h.letters, h.distinct, defines_iff_knows.mp h.initial, ?_, ?_⟩
    · rintro _ ⟨t, ht, rfl⟩
      exact defines_iff_knows.mp (h.targets t ht)
    · intro label state hget
      exact ⟨h.matched label state hget, fun t ht =>
        h.written t (mem_transitions.mpr ⟨label, state, hget, ht⟩)⟩
  · rintro ⟨hletters, hdistinct, hinitial, htargets, hstates⟩
    refine ⟨hletters, hdistinct, defines_iff_knows.mpr hinitial, fun t ht => ?_,
      fun label state hget => (hstates label state hget).1, fun t ht => ?_⟩
    · exact defines_iff_knows.mpr (htargets t.next ⟨t, ht, rfl⟩)
    · obtain ⟨label, state, hget, hmem⟩ := mem_transitions.mp ht
      exact (hstates label state hget).2 t hmem

/-- If letters and initial label are in order, the unknown targets are reported together. -/
theorem validate_eq_undefinedTargets (hletters : ∀ c ∈ a.alphabet, isLetter c)
    (hdistinct : a.alphabet.Nodup) (hinitial : a.Knows a.initial) {l : Label}
    (hl : a.LeadsTo l) (hunknown : ¬ a.Knows l) :
    a.validate = .error (.undefinedTargets a.undefinedTargets) := by
  have hmem : l ∈ a.undefinedTargets := mem_undefinedTargets.mpr ⟨hl, hunknown⟩
  rw [validate_eq_error_iff, problems,
    letterProblems_eq_nil.mpr ⟨hletters, fresh_nil_iff.mpr hdistinct⟩,
    if_pos (defines_iff_knows.mpr hinitial)]
  cases hu : a.undefinedTargets with
  | nil =>
    rw [hu] at hmem
    exact absurd hmem List.not_mem_nil
  | cons k ks => rfl

/-- The validator accepts an automaton if its letters are distinct and of the right kind, the
initial label and all targets are known, and all symbols are blank or in the alphabet.  Of every
other automaton it reports the defect with the least address.  If that is a target, the report
lists all unknown targets, each once, in the order of their bytes. -/
theorem validate_reports_first_defect (a : Automaton) :
    (a.validate = .ok () ↔
      (∀ c ∈ a.alphabet, isLetter c) ∧ a.alphabet.Nodup ∧ a.Knows a.initial ∧
      (∀ l, a.LeadsTo l → a.Knows l) ∧
      ∀ label state, a.states.get? label = some state → (∀ s ∈ state.matched, a.accepts s) ∧
        ∀ t ∈ state.transitions, ∀ s ∈ t.write, a.accepts s) ∧
    ((∀ c ∈ a.alphabet, isLetter c) → a.alphabet.Nodup → a.Knows a.initial →
      (∃ l, a.LeadsTo l ∧ ¬ a.Knows l) →
      ∃ labels, a.Unknown labels ∧ a.validate = .error (.undefinedTargets labels)) ∧
    ∀ p, a.validate = .error p ↔
      ∃ b, a.Defect b p ∧ ∀ c q, a.Defect c q → b = c ∨ b.Before c := by
  refine ⟨validate_eq_ok_iff.trans wellFormed_iff, ?_, fun p => ?_⟩
  · rintro hletters hdistinct hinitial ⟨l, hl, hunknown⟩
    exact ⟨a.undefinedTargets, unknown_undefinedTargets,
      validate_eq_undefinedTargets hletters hdistinct hinitial hl hunknown⟩
  · rw [validate_eq_error_iff, a.lists_problems.head?_eq_some_iff]

/-- An automaton whose transitions lead to two labels that it does not define, to one of them
twice.  The last state also writes a symbol outside the alphabet. -/
def misdirected : Automaton where
  alphabet := ['a']
  initial := "s"
  states := .ofList
    [("s", .variable (.ofList
        [(.letter 'a', ⟨"é", none, some .right⟩), (.blank, ⟨"z", none, none⟩)])),
      ("t", .constant ⟨"z", some (.letter 'b'), none⟩)]

theorem validate_misdirected :
    ∃ labels, misdirected.Unknown labels ∧ labels = ["z", "é"] ∧
      misdirected.validate = .error (.undefinedTargets labels) := by
  have hleads : misdirected.LeadsTo "z" :=
    ⟨⟨"z", none, none⟩, by decide +kernel, rfl⟩
  have hunknown : ¬ misdirected.Knows "z" := by
    rw [← defines_iff_knows]
    decide +kernel
  have hinitial : misdirected.Knows misdirected.initial := by
    rw [← defines_iff_knows]
    decide +kernel
  have hletters : ∀ c ∈ misdirected.alphabet, isLetter c :=
    List.forall_mem_singleton.mpr (by decide)
  have hdistinct : misdirected.alphabet.Nodup := List.nodup_singleton 'a'
  obtain ⟨labels, hlabels, hvalidate⟩ := (validate_reports_first_defect misdirected).2.1
    hletters hdistinct hinitial ⟨"z", hleads, hunknown⟩
  exact ⟨labels, hlabels, hlabels.eq.trans (by decide +kernel), hvalidate⟩

end Automaton
end TapeLang
