import TapeLang.Automaton.Validate
import TapeLang.Proofs.Transitions
import TapeLang.Proofs.WellFormed

/-!
A compiled program passes the validator.

The checks of a program look at its tree and the validator looks at the table.  Between them
stands the fact that the label of an occurrence is defined: that of what is left after a block,
of what is left in a branch, and of the body of a module that is not empty.
-/

namespace TapeLang

namespace Table

variable {κ ν : Type} [LT κ] [DecidableEq κ] [KeyOrder κ] [DecidableLT κ]

theorem contains_foldl_insert {l : List (κ × ν)} {t : Table κ ν} {k : κ} :
    (l.foldl (fun t e => t.insert e.1 e.2) t).contains k ↔ t.contains k ∨ k ∈ l.map (·.1) := by
  induction l generalizing t with
  | nil => simp
  | cons e l ih =>
    rw [List.foldl_cons, ih, List.map_cons, List.mem_cons, contains, get?_insert]
    by_cases hk : e.1 = k
    · simp [hk]
    · rw [if_neg hk]
      simp [contains, Ne.symm hk]

omit [DecidableLT κ] in
theorem mem_keys_iff {t : Table κ ν} {k : κ} : k ∈ t.keys ↔ t.contains k := by
  rw [keys, List.mem_map, contains_iff]
  constructor
  · rintro ⟨⟨k, v⟩, he, rfl⟩
    exact ⟨v, mem_entries_iff.mp he⟩
  · rintro ⟨v, hv⟩
    exact ⟨(k, v), mem_entries_iff.mpr hv, rfl⟩

theorem mem_keys_ofList_iff {l : List (κ × ν)} {k : κ} :
    k ∈ (ofList l).keys ↔ k ∈ l.map (·.1) := by
  rw [mem_keys_iff, ofList, contains_foldl_insert]
  simp [contains]

theorem keys_ofList_eq_nil {l : List (κ × ν)} : (ofList l).keys = [] ↔ l = [] := by
  constructor
  · intro h
    cases l with
    | nil => rfl
    | cons e l =>
      have hkey : e.1 ∈ (ofList (e :: l)).keys := mem_keys_ofList_iff.mpr List.mem_cons_self
      rw [h] at hkey
      cases hkey
  · intro h
    rw [h]
    rfl

end Table

namespace Automaton

theorem letterProblems_eq_nil {seen cs : List Char} :
    letterProblems seen cs = [] ↔ (∀ c ∈ cs, isLetter c) ∧ Fresh seen cs := by
  induction cs generalizing seen with
  | nil => exact iff_of_true rfl ⟨fun _ h => absurd h List.not_mem_nil, fresh_nil seen⟩
  | cons c cs ih =>
    have hbad : ((if isLetter c then [] else [.badLetter c] : List Problem) = []) ↔
        isLetter c := by simp
    have hseen : ((if c ∈ seen then [.repeatedLetter c] else [] : List Problem) = []) ↔
        c ∉ seen := by simp
    rw [letterProblems, List.append_eq_nil_iff, List.append_eq_nil_iff, ih, hbad, hseen,
      fresh_cons, List.forall_mem_cons]
    exact and_and_and_comm

theorem undefinedTargets_eq_nil {a : Automaton} :
    a.undefinedTargets = [] ↔ ∀ t ∈ a.transitions, a.defines t.next := by
  rw [undefinedTargets, Table.keys_ofList_eq_nil, List.map_eq_nil_iff, List.filter_eq_nil_iff]
  simp

end Automaton

def State.matched : State → List Symbol
  | .constant _ => []
  | .variable table => table.keys

theorem State.mem_matched {state : State} {s : Symbol} (h : s ∈ state.matched) :
    ∃ t, state.on s = some t := by
  match state, h with
  | .variable table, h =>
    obtain ⟨⟨s', t⟩, hmem, rfl⟩ := List.mem_map.mp h
    exact ⟨t, Table.mem_entries_iff.mp hmem⟩

namespace Automaton

variable {a : Automaton}

theorem stateProblems_eq (label : Label) (state : State) :
    a.stateProblems label state =
      (state.matched.filter fun s => !a.accepts s).map (.matchesOutside label) ++
        ((state.transitions.filterMap (·.write)).filter fun s => !a.accepts s).map
          (.writesOutside label) := by
  cases state <;> rfl

theorem stateProblems_eq_nil {label : Label} {state : State} :
    a.stateProblems label state = [] ↔ (∀ s ∈ state.matched, a.accepts s) ∧
      ∀ t ∈ state.transitions, ∀ s ∈ t.write, a.accepts s := by
  rw [stateProblems_eq, List.append_eq_nil_iff, List.map_eq_nil_iff, List.map_eq_nil_iff,
    List.filter_eq_nil_iff, List.filter_eq_nil_iff]
  simp only [Bool.not_eq_true', Bool.not_eq_false, List.mem_filterMap, forall_exists_index,
    and_imp]
  constructor
  · intro h
    exact ⟨h.1, fun t ht s hs => h.2 s t ht hs⟩
  · intro h
    exact ⟨h.1, fun s t ht hs => h.2 t ht s hs⟩

/-- What the validator accepts. -/
structure WellFormed (a : Automaton) : Prop where
  letters : ∀ c ∈ a.alphabet, isLetter c
  distinct : a.alphabet.Nodup
  initial : a.defines a.initial
  targets : ∀ t ∈ a.transitions, a.defines t.next
  matched : ∀ label state, a.states.get? label = some state → ∀ s ∈ state.matched, a.accepts s
  written : ∀ t ∈ a.transitions, ∀ s ∈ t.write, a.accepts s

theorem mem_transitions {t : Transition} :
    t ∈ a.transitions ↔
      ∃ label state, a.states.get? label = some state ∧ t ∈ state.transitions := by
  rw [transitions, Table.values, List.mem_flatMap]
  constructor
  · intro h
    obtain ⟨state, hmem, ht⟩ := h
    obtain ⟨⟨label, state⟩, he, rfl⟩ := List.mem_map.mp hmem
    exact ⟨label, state, Table.mem_entries_iff.mp he, ht⟩
  · intro h
    obtain ⟨label, state, hget, ht⟩ := h
    exact ⟨state, List.mem_map.mpr ⟨(label, state), Table.mem_entries_iff.mpr hget, rfl⟩, ht⟩

theorem validate_of_wellFormed (h : a.WellFormed) : a.validate = .ok () := by
  have hletters : letterProblems [] a.alphabet = [] :=
    letterProblems_eq_nil.mpr ⟨h.letters, fresh_nil_iff.mpr h.distinct⟩
  have hproblems : a.problems = [] := by
    rw [problems, hletters, if_pos h.initial, undefinedTargets_eq_nil.mpr h.targets]
    refine List.flatMap_eq_nil_iff.mpr fun e he => ?_
    have hget := Table.mem_entries_iff.mp he
    refine stateProblems_eq_nil.mpr ⟨h.matched e.1 e.2 hget, fun t ht => ?_⟩
    exact h.written t (mem_transitions.mpr ⟨e.1, e.2, hget, ht⟩)
  rw [validate, hproblems]

theorem wellFormed_of_validate (h : a.validate = .ok ()) : a.WellFormed := by
  have hproblems : a.problems = [] := by
    rw [validate] at h
    cases hp : a.problems with
    | nil => rfl
    | cons problem rest =>
      rw [hp] at h
      cases h
  rw [problems, List.append_eq_nil_iff, List.append_eq_nil_iff, List.append_eq_nil_iff,
    letterProblems_eq_nil, fresh_nil_iff, List.flatMap_eq_nil_iff] at hproblems
  obtain ⟨⟨⟨⟨hletters, hdistinct⟩, hinitial⟩, htargets⟩, hstates⟩ := hproblems
  have hstate : ∀ label state, a.states.get? label = some state →
      (∀ s ∈ state.matched, a.accepts s) ∧ ∀ t ∈ state.transitions, ∀ s ∈ t.write, a.accepts s :=
    fun label state hget =>
      stateProblems_eq_nil.mp (hstates (label, state) (Table.mem_entries_iff.mpr hget))
  refine ⟨hletters, hdistinct, ?_, ?_, fun label state hget => (hstate label state hget).1, ?_⟩
  · by_contra hnot
    rw [if_neg hnot] at hinitial
    cases hinitial
  · apply undefinedTargets_eq_nil.mp
    cases hu : a.undefinedTargets with
    | nil => rfl
    | cons l ls =>
      rw [hu] at htargets
      cases htargets
  · intro t ht
    obtain ⟨label, state, hget, hmem⟩ := mem_transitions.mp ht
    exact (hstate label state hget).2 t hmem

end Automaton

/-! ## What the compiler gives -/

namespace Program.Compiled

variable {p : Program} {a : Automaton}

theorem accepts_of_holds (hc : p.Compiled a) {s : Symbol} (h : p.scope.Holds s) :
    a.accepts s := by
  cases s with
  | blank => rfl
  | letter c =>
    rw [Automaton.accepts, hc.alphabet, List.contains_iff_mem]
    exact h

theorem contains_of_occurs (hc : p.Compiled a) {m : Module} (hm : m ∈ p.modules) {place : Place}
    {i : Nat} {bs : List Block} (h : Occurs m place i bs) (hne : bs ≠ []) :
    a.states.contains (.ofIndex m.name.value i) := by
  cases bs with
  | nil => exact absurd rfl hne
  | cons b bs => exact Table.contains_iff.mpr ⟨_, hc.get?_of_occurs hm h⟩

/-- The label of what is left of a sequence is defined. -/
theorem defines_entry (hc : p.Compiled a) {m : Module} (hm : m ∈ p.modules) {place : Place}
    {i : Nat} {bs : List Block} (h : Occurs m place i bs) :
    a.defines (Block.entry m.name.value i bs) := by
  cases bs with
  | nil => rfl
  | cons b bs =>
    rw [Automaton.defines, Block.entry, hc.contains_of_occurs hm h (List.cons_ne_nil b bs),
      Bool.or_true]

/-- The transition of a basic block without faults that is followed by a defined label. -/
theorem transition_ok (hc : p.Compiled a) (hne : ∀ m ∈ p.modules, m.blocks ≠ [])
    {b : BasicBlock} (hb : p.scope.basicProblems b = []) {next : Label} (hn : a.defines next) :
    a.defines (b.transition next).next ∧ ∀ s ∈ (b.transition next).write, a.accepts s := by
  obtain ⟨hwrite, hflow⟩ := Scope.basicProblems_eq_nil.mp hb
  constructor
  · rw [BasicBlock.transition]
    match hf : b.flow with
    | none => exact hn
    | some .accept => rfl
    | some .reject => rfl
    | some (.goto target) =>
      obtain ⟨m, hm, hname⟩ := List.mem_map.mp (hflow target hf)
      show a.defines (.ofIndex target.value 0)
      rw [Automaton.defines, ← hname, hc.contains_of_occurs hm .body (hne m hm), Bool.or_true]
  · intro s hs
    obtain ⟨s', hs', rfl⟩ := Option.map_eq_some_iff.mp hs
    exact hc.accepts_of_holds (hwrite s' hs')

/-- The transitions of a point are in order. -/
theorem point_ok (hc : p.Compiled a) (hne : ∀ m ∈ p.modules, m.blocks ≠ []) {m : Module}
    (hm : m ∈ p.modules) {place : Place} {i : Nat} {b : Block} {bs : List Block}
    (h : Occurs m place i (b :: bs)) {s : Symbol} {t : Transition}
    (ht : Point.transition? ⟨m, place, b, bs⟩ i s = some t) :
    a.defines t.next ∧ ∀ w ∈ t.write, a.accepts w := by
  have hb := hc.blockProblems_of_occurs hm h
  cases b with
  | basic b =>
    cases ht
    rw [Scope.blockProblems] at hb
    exact hc.transition_ok hne hb (hc.defines_entry hm h.past)
  | switch cases span =>
    rw [Scope.blockProblems] at hb
    obtain ⟨⟨k, c⟩, hchoose, heq⟩ := Option.map_eq_some_iff.mp ht
    obtain ⟨hk, -⟩ := Case.choose_eq_some hchoose
    have hcase := (Scope.casesProblems_eq_nil.mp hb).1 c (List.mem_of_getElem? hk)
    cases heq
    cases c with
    | loop symbols body cspan =>
      rw [Scope.bodyProblems, Scope.writeProblems_eq_nil] at hcase
      constructor
      · show a.defines (.ofIndex m.name.value i)
        rw [Automaton.defines, hc.contains_of_occurs hm h (List.cons_ne_nil _ _), Bool.or_true]
      · intro w hw
        obtain ⟨w', hw', rfl⟩ := Option.map_eq_some_iff.mp hw
        exact hc.accepts_of_holds (hcase.2 w' hw')
    | branch symbols first rest cspan =>
      rw [Scope.bodyProblems, List.append_eq_nil_iff] at hcase
      exact hc.transition_ok hne hcase.2.1 (hc.defines_entry hm (h.into hk))

theorem on_ok (hc : p.Compiled a) (hne : ∀ m ∈ p.modules, m.blocks ≠ []) {label : Label}
    {state : State} (hget : a.states.get? label = some state) {s : Symbol} {t : Transition}
    (ht : state.on s = some t) : a.defines t.next ∧ ∀ w ∈ t.write, a.accepts w := by
  obtain ⟨m, hm, place, i, b, bs, hocc, -, rfl⟩ := hc.exists_occurs hget
  rw [Point.on_state (hc.blockProblems_of_occurs hm hocc)] at ht
  exact hc.point_ok hne hm hocc ht

theorem matched_ok (hc : p.Compiled a) {label : Label} {state : State}
    (hget : a.states.get? label = some state) {s : Symbol} (hs : s ∈ state.matched) :
    a.accepts s := by
  obtain ⟨m, hm, place, i, b, bs, hocc, -, rfl⟩ := hc.exists_occurs hget
  have hb := hc.blockProblems_of_occurs hm hocc
  obtain ⟨t, ht⟩ := State.mem_matched hs
  rw [Point.on_state hb] at ht
  cases b with
  | basic b => cases hs
  | switch cases span =>
    rw [Scope.blockProblems] at hb
    obtain ⟨⟨k, c⟩, hchoose, -⟩ := Option.map_eq_some_iff.mp ht
    obtain ⟨hk, hsymbol⟩ := Case.choose_eq_some hchoose
    obtain ⟨s', hs', rfl⟩ := List.mem_map.mp hsymbol
    exact hc.accepts_of_holds
      (((Scope.casesProblems_eq_nil.mp hb).1 c (List.mem_of_getElem? hk)).1 s' hs')

theorem wellFormed (hc : p.Compiled a) (hp : p.WellFormed) : a.WellFormed := by
  have hne : ∀ m ∈ p.modules, m.blocks ≠ [] := fun m hm => (hp.modules m hm).ne_nil
  constructor
  · intro c hmem
    rw [hc.alphabet] at hmem
    obtain ⟨c', hc', rfl⟩ := List.mem_map.mp hmem
    exact hp.letters c' hc'
  · rw [hc.alphabet]
    exact (problems_eq_nil.mp hc.problems).1
  · obtain ⟨first, more, hmodules, hinitial⟩ := hc.initial
    have hm : first ∈ p.modules := hmodules ▸ List.mem_cons_self ..
    rw [Automaton.defines, hinitial, hc.contains_of_occurs hm .body (hne first hm), Bool.or_true]
  · intro t ht
    obtain ⟨label, state, hget, hmem⟩ := Automaton.mem_transitions.mp ht
    obtain ⟨s, hs⟩ := State.mem_transitions.mp hmem
    exact (hc.on_ok hne hget hs).1
  · intro label state hget s hs
    exact hc.matched_ok hget hs
  · intro t ht
    obtain ⟨label, state, hget, hmem⟩ := Automaton.mem_transitions.mp ht
    obtain ⟨s, hs⟩ := State.mem_transitions.mp hmem
    exact (hc.on_ok hne hget hs).2

theorem not_contains_terminal (hc : p.Compiled a) {label : Label} (h : Label.isTerminal label) :
    ¬ a.states.contains label := by
  intro hcontains
  obtain ⟨state, hget⟩ := Table.contains_iff.mp hcontains
  obtain ⟨m, -, place, i, b, bs, -, rfl, -⟩ := hc.exists_occurs hget
  rw [Label.isTerminal_ofIndex] at h
  cases h

end Program.Compiled

namespace Program

theorem compileText_eq_ok {text : String} {a : Automaton} (h : compileText text = .ok a) :
    ∃ p, parse text = .ok p ∧ p.compile = .ok a := by
  rw [compileText] at h
  cases hp : parse text with
  | error e =>
    rw [hp] at h
    cases h
  | ok p =>
    rw [hp] at h
    exact ⟨p, rfl, h⟩

/-- A program text that compiles gives an automaton that the validator accepts: its alphabet is
the declared one, its first state that of the first module, all targets are defined, all symbols
are blank or declared, and no state has the label of a machine that has halted. -/
theorem validate_of_compileText {text : String} {a : Automaton}
    (h : compileText text = .ok a) :
    a.validate = .ok () ∧ ∃ p first more, parse text = .ok p ∧ p.modules = first :: more ∧
      a.alphabet = p.alphabet.values ∧ a.alphabet.Nodup ∧ (∀ c ∈ a.alphabet, isLetter c) ∧
      a.initial = first.name.value ++ "0" ∧ a.states.contains a.initial ∧
      (∀ t ∈ a.transitions,
        t.next = Label.accept ∨ t.next = Label.reject ∨ a.states.contains t.next) ∧
      (∀ label state, a.states.get? label = some state → ∀ s ∈ state.matched, a.accepts s) ∧
      (∀ t ∈ a.transitions, ∀ s ∈ t.write, a.accepts s) ∧
      ¬ a.states.contains Label.accept ∧ ¬ a.states.contains Label.reject := by
  obtain ⟨p, hp, hcompile⟩ := compileText_eq_ok h
  have hwf := wellFormed_of_parse hp
  have hc := compiled_of_compile hcompile
  have ha := hc.wellFormed hwf
  obtain ⟨first, more, hmodules, hinitial⟩ := hc.initial
  have hfirst : first ∈ p.modules := hmodules ▸ List.mem_cons_self ..
  refine ⟨Automaton.validate_of_wellFormed ha, p, first, more, hp, hmodules, hc.alphabet,
    ha.distinct, ha.letters, hinitial, ?_, ?_, ha.matched, ha.written,
    hc.not_contains_terminal rfl, hc.not_contains_terminal rfl⟩
  · rw [hinitial]
    exact hc.contains_of_occurs hfirst .body (hwf.modules first hfirst).ne_nil
  · intro t ht
    have hdefines := ha.targets t ht
    simpa [Automaton.defines, Label.isTerminal, or_assoc] using hdefines

theorem exists_compileText_sampleText : ∃ a, compileText sampleText = .ok a :=
  exists_eq_ok (by decide +kernel)

theorem validate_sampleText :
    ∃ a, compileText sampleText = .ok a ∧ a.validate = .ok () ∧
      ¬ a.states.contains Label.accept ∧ ¬ a.states.contains Label.reject := by
  obtain ⟨a, ha⟩ := exists_compileText_sampleText
  obtain ⟨hvalid, p, first, more, -, -, -, -, -, -, -, -, -, -, hterminal⟩ :=
    validate_of_compileText ha
  exact ⟨a, ha, hvalid, hterminal⟩

end Program

end TapeLang
