import TapeLang.Proofs.Calls
import TapeLang.Proofs.Validity

/-!
Machines of accepted automata are safe.

The validator looks at an automaton once, and `Machine.Safe` is what this is worth for a machine:
its label is terminal or defined, and every cell of its tape is blank or a letter of the alphabet.
A start is safe, and a step keeps a machine safe.  A safe machine can only fail to step for want of
a transition in a table, and not even then if the tables are complete.
-/

namespace TapeLang

namespace Machine

structure Safe (a : Automaton) (m : Machine) : Prop where
  label : a.defines m.label
  cells : ∀ p, a.accepts (m.tape.read p)

theorem safe_start {a : Automaton} (ha : a.WellFormed) {input : List Symbol}
    (hinput : ∀ s ∈ input, a.accepts s) : Safe a (start a input) := by
  refine ⟨ha.initial, fun p => ?_⟩
  show a.accepts ((Tape.ofSymbols input).read p)
  rw [Tape.read_ofSymbols]
  by_cases hp : p < 0
  · rw [if_pos hp]
    rfl
  · rw [if_neg hp]
    cases hs : input[p.toNat]? with
    | none => rfl
    | some s => exact hinput s (List.mem_of_getElem? hs)

theorem Safe.step {a : Automaton} (ha : a.WellFormed) {m m' : Machine} (hm : m.automaton = a)
    (h : Safe a m) (hstep : m.step = .ok m') : Safe a m' := by
  obtain ⟨state, t, hs, ht, rfl⟩ := exists_take_of_ok hstep
  rw [hm] at hs
  have hmem : t ∈ a.transitions :=
    Automaton.mem_transitions.mpr ⟨m.label, state, hs, State.mem_transitions.mpr ⟨_, ht⟩⟩
  refine ⟨ha.targets t hmem, fun p => ?_⟩
  show a.accepts ((m.tape.act t.write t.move).read p)
  rw [Tape.read_act]
  cases hw : t.write with
  | none => exact h.cells p
  | some s =>
    show a.accepts (if p = m.tape.head then s else m.tape.read p)
    by_cases hp : p = m.tape.head
    · rw [if_pos hp]
      exact ha.written t hmem s hw
    · rw [if_neg hp]
      exact h.cells p

theorem safe_of_reaches {a : Automaton} (ha : a.WellFormed) {m : Machine} (hm : a.Reaches m) :
    Safe a m :=
  (hm.keeps (safe_start ha) fun hauto h hstep => h.step ha hauto hstep).property

theorem Safe.symbol {a : Automaton} {m : Machine} (h : Safe a m) : a.accepts m.symbol :=
  h.cells m.tape.head

/-- A safe machine meets no fault but a missing entry for a symbol that may stand on the tape. -/
theorem Safe.step_eq_fault {a : Automaton} {m : Machine} (hm : m.automaton = a) (h : Safe a m)
    {f : Fault} (hstep : m.step = .error (.fault f)) :
    f = .undefinedTransition m.label m.symbol ∧
      ∃ table, a.states.get? m.label = some (.variable table) ∧ table.get? m.symbol = none := by
  have hcase := m.stepCase
  rw [hstep] at hcase
  cases hcase with
  | invalid ht hs =>
    have hdefines := h.label
    rw [hm] at hs
    rw [Automaton.defines, ht, Bool.false_or, Table.contains, hs] at hdefines
    cases hdefines
  | @undefined state ht hs hon =>
    rw [hm] at hs
    refine ⟨rfl, ?_⟩
    rcases state with t | table
    · cases hon
    · exact ⟨table, hs, hon⟩

end Machine

namespace Automaton

variable {a : Automaton}

theorem accepts_iff {s : Symbol} : a.accepts s ↔ s = .blank ∨ ∃ c ∈ a.alphabet, s = .letter c := by
  cases s <;> simp [accepts]

/-- Every state that looks at the symbol under the head knows all symbols that may stand there. -/
def Complete (a : Automaton) : Prop :=
  ∀ label table, a.states.get? label = some (.variable table) →
    table.contains .blank ∧ ∀ c ∈ a.alphabet, table.contains (.letter c)

theorem complete_iff : a.Complete ↔ ∀ e ∈ a.states.entries,
    ∀ s ∈ Symbol.blank :: a.alphabet.map .letter, (e.2.on s).isSome := by
  simp only [List.forall_mem_cons, List.forall_mem_map]
  constructor
  · intro h e he
    rcases e with ⟨label, t | table⟩
    · exact ⟨rfl, fun _ _ => rfl⟩
    · exact h label table (Table.mem_entries_iff.mp he)
  · intro h label table hget
    exact h (label, .variable table) (Table.mem_entries_iff.mpr hget)

instance : Decidable a.Complete := decidable_of_iff _ complete_iff.symm

end Automaton

namespace Machine

theorem Safe.step_ne_fault {a : Automaton} (ha : a.Complete) {m : Machine} (hm : m.automaton = a)
    (h : Safe a m) (f : Fault) : m.step ≠ .error (.fault f) := by
  intro hstep
  obtain ⟨-, table, hs, hnone⟩ := h.step_eq_fault hm hstep
  obtain ⟨hblank, hletter⟩ := ha m.label table hs
  have hsymbol := h.symbol
  have hcontains : table.contains m.symbol := by
    cases hsym : m.symbol with
    | blank => exact hblank
    | letter c =>
      rw [hsym, Automaton.accepts, List.contains_iff_mem] at hsymbol
      exact hletter c hsymbol
  rw [Table.contains, hnone] at hcontains
  cases hcontains

/-- Whatever is done with a machine of an automaton that the validator accepts, its label is
terminal or defined, its tape holds letters of the alphabet, and a step can only fail for want of
an entry for the symbol under the head.  If the tables are complete, no step and no run fails. -/
theorem safe_of_validate {a : Automaton} (ha : a.validate = .ok ()) {m : Machine}
    (hm : a.Reaches m) :
    (Label.isTerminal m.label ∨ a.states.contains m.label) ∧
      (∀ p c, m.tape.read p = .letter c → c ∈ a.alphabet) ∧
      (∀ f, m.step = .error (.fault f) → f = .undefinedTransition m.label m.symbol ∧
        (m.symbol = .blank ∨ ∃ c ∈ a.alphabet, m.symbol = .letter c) ∧
        ∃ table, a.states.get? m.label = some (.variable table) ∧ table.get? m.symbol = none) ∧
      (a.Complete → (∀ f, m.step ≠ .error (.fault f)) ∧
        ∀ n f, (m.run n).1.outcome ≠ .fault f) := by
  have hwf := Automaton.wellFormed_of_validate ha
  have hsafe := safe_of_reaches hwf hm
  refine ⟨?_, fun p c hp => ?_, fun f hf => ?_, fun hcomplete => ⟨?_, fun n f hf => ?_⟩⟩
  · simpa [Automaton.defines] using hsafe.label
  · have hcell := hsafe.cells p
    rwa [hp, Automaton.accepts, List.contains_iff_mem] at hcell
  · obtain ⟨heq, htable⟩ := hsafe.step_eq_fault hm.automaton hf
    exact ⟨heq, Automaton.accepts_iff.mp hsafe.symbol, htable⟩
  · exact hsafe.step_ne_fault hcomplete hm.automaton
  · -- A run meets a fault as a step of the machine it leaves, and that machine is safe too.
    have hreaches := hm.perform (.run n)
    have hstep := (outcome_run_eq_fault_iff.mp hf).2
    rw [← run_machine] at hstep
    exact (safe_of_reaches hwf hreaches).step_ne_fault hcomplete hreaches.automaton f hstep

theorem safe_eraser :
    ∃ m : Machine, Automaton.eraser.Reaches m ∧ m.label = "erase" ∧ m.symbol = .letter 'b' ∧
      (∀ f, m.step ≠ .error (.fault f)) ∧ ∀ n f, (m.run n).1.outcome ≠ .fault f := by
  have hreaches : Automaton.eraser.Reaches
      ((start Automaton.eraser (Symbol.ofTape "ba")).performAll
        [.step, .load "x", .run 5, .reset, .load "ab", .next]) :=
    ⟨Symbol.ofTape "ba", _, _, rfl, rfl⟩
  have hvalid : Automaton.eraser.validate = .ok () := by decide +kernel
  have hcomplete : Automaton.eraser.Complete := by decide +kernel
  exact ⟨_, hreaches, by decide +kernel, by decide +kernel,
    (safe_of_validate hvalid hreaches).2.2.2 hcomplete⟩

end Machine

end TapeLang
