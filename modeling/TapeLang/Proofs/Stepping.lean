import Mathlib.Logic.Function.Iterate
import TapeLang.Machine

/-!
One step of a machine.

`State.on` is what a state does on a symbol, and `Machine.StepCase` is everything a step can do:
it is taken if the label is not terminal and its state knows the symbol under the head, and
otherwise there is one reason why it is not.  `Machine.after` repeats steps and stays once there
is none.
-/

namespace TapeLang

theorem Label.isTerminal_eq_false_iff {l : Label} :
    Label.isTerminal l = false ↔ l ≠ Label.accept ∧ l ≠ Label.reject := by
  simp [Label.isTerminal]

theorem Label.ne_accept_of_eq_reject {l : Label} (h : l = Label.reject) : l ≠ Label.accept := by
  rw [h]
  decide

/-- The transition of a state on a symbol. -/
def State.on (state : State) (s : Symbol) : Option Transition :=
  match state with
  | .constant t => some t
  | .variable table => table.get? s

theorem State.mem_transitions {state : State} {t : Transition} :
    t ∈ state.transitions ↔ ∃ s, state.on s = some t := by
  match state with
  | .constant t' =>
    rw [State.transitions, List.mem_singleton]
    constructor
    · intro h
      exact ⟨.blank, congrArg some h.symm⟩
    · intro h
      obtain ⟨s, hs⟩ := h
      exact (Option.some.inj hs).symm
  | .variable table =>
    rw [State.transitions, Table.values, List.mem_map]
    constructor
    · intro h
      obtain ⟨⟨s, t'⟩, hmem, rfl⟩ := h
      exact ⟨s, Table.mem_entries_iff.mp hmem⟩
    · intro h
      obtain ⟨s, hs⟩ := h
      exact ⟨(s, t), Table.mem_entries_iff.mpr hs, rfl⟩

theorem Machine.create_eq_ok {a : Automaton} {input : List Symbol} {m : Machine}
    (h : Machine.create a input = .ok m) : m = Machine.start a input := by
  rw [Machine.create] at h
  cases hi : Machine.checkInput a input with
  | error e =>
    rw [hi] at h
    cases h
  | ok u =>
    rw [hi] at h
    cases h
    rfl

theorem Machine.accepts_of_create {a : Automaton} {input : List Symbol} {m : Machine}
    (h : Machine.create a input = .ok m) : ∀ s ∈ input, a.accepts s := by
  intro s hs
  cases hfind : input.find? (fun s => !a.accepts s) with
  | none => simpa using List.find?_eq_none.mp hfind s hs
  | some bad =>
    rw [Machine.create, Machine.checkInput, hfind] at h
    cases h

theorem Machine.pending_eq {m : Machine} {state : State}
    (h : m.automaton.states.get? m.label = some state) :
    m.pending = (state.on m.symbol).elim (.error (.undefinedTransition m.label m.symbol)) .ok := by
  rw [Machine.pending, h]
  match state with
  | .constant t => rfl
  | .variable table =>
    dsimp only [State.on]
    cases table.get? m.symbol <;> rfl

namespace Machine

theorem run_takeStep (m : Machine) : takeStep.run m = (do
    let t ← m.due
    modify (take · t)
    return (← get).configuration : ExceptT Halt (StateM Machine) Configuration).run m := rfl

/-- A step that is not taken leaves the machine as it is. -/
theorem run_takeStep_of_due_error {m : Machine} {halt : Halt} (h : m.due = .error halt) :
    takeStep.run m = (.error halt, m) := by
  rw [run_takeStep, h]
  rfl

theorem run_takeStep_of_due {m : Machine} {t : Transition} (h : m.due = .ok t) :
    takeStep.run m = (.ok (m.take t).configuration, m.take t) := by
  rw [run_takeStep, h]
  rfl

theorem step_eq_map_due (m : Machine) : m.step = m.due.map m.take := by
  rw [step]
  cases h : m.due with
  | error halt =>
    rw [led, run_takeStep_of_due_error h]
    rfl
  | ok t =>
    rw [led, run_takeStep_of_due h]
    rfl

theorem run_takeStep_of_error {m : Machine} {halt : Halt} (h : m.step = .error halt) :
    takeStep.run m = (.error halt, m) := by
  rw [step_eq_map_due] at h
  cases hdue : m.due with
  | error halt' =>
    rw [hdue] at h
    cases h
    exact run_takeStep_of_due_error hdue
  | ok t =>
    rw [hdue] at h
    cases h

theorem run_takeStep_of_ok {m m' : Machine} (h : m.step = .ok m') :
    takeStep.run m = (.ok m'.configuration, m') := by
  rw [step_eq_map_due] at h
  cases hdue : m.due with
  | error halt =>
    rw [hdue] at h
    cases h
  | ok t =>
    rw [hdue] at h
    cases h
    exact run_takeStep_of_due hdue

/-- What a step of a machine is, by the reasons for it. -/
inductive StepCase (m : Machine) : Except Halt Machine → Prop
  | accept (h : m.label = Label.accept) : StepCase m (.error .accept)
  | reject (h : m.label = Label.reject) : StepCase m (.error .reject)
  | invalid (ht : Label.isTerminal m.label = false)
    (h : m.automaton.states.get? m.label = none) :
    StepCase m (.error (.fault (.invalidState m.label)))
  | undefined {state : State} (ht : Label.isTerminal m.label = false)
    (hs : m.automaton.states.get? m.label = some state) (h : state.on m.symbol = none) :
    StepCase m (.error (.fault (.undefinedTransition m.label m.symbol)))
  | taken {state : State} {t : Transition} (ht : Label.isTerminal m.label = false)
    (hs : m.automaton.states.get? m.label = some state) (h : state.on m.symbol = some t) :
    StepCase m (.ok (m.take t))

theorem stepCase (m : Machine) : m.StepCase m.step := by
  rw [step_eq_map_due, due]
  by_cases haccept : m.label = Label.accept
  · rw [if_pos haccept]
    exact .accept haccept
  by_cases hreject : m.label = Label.reject
  · rw [if_neg haccept, if_pos hreject]
    exact .reject hreject
  have ht := Label.isTerminal_eq_false_iff.mpr ⟨haccept, hreject⟩
  rw [if_neg haccept, if_neg hreject]
  cases hs : m.automaton.states.get? m.label with
  | none =>
    rw [pending, hs]
    exact .invalid ht hs
  | some state =>
    rw [pending_eq hs]
    cases h : state.on m.symbol with
    | none => exact .undefined ht hs h
    | some t => exact .taken ht hs h

theorem step_eq_accept_iff {m : Machine} : m.step = .error .accept ↔ m.label = Label.accept := by
  constructor
  · intro h
    have hcase := m.stepCase
    rw [h] at hcase
    cases hcase with
    | accept h => exact h
  · intro h
    rw [step_eq_map_due, due, if_pos h]
    rfl

theorem step_eq_reject_iff {m : Machine} : m.step = .error .reject ↔ m.label = Label.reject := by
  constructor
  · intro h
    have hcase := m.stepCase
    rw [h] at hcase
    cases hcase with
    | reject h => exact h
  · intro h
    rw [step_eq_map_due, due, if_neg (Label.ne_accept_of_eq_reject h), if_pos h]
    rfl

/-- A step that is taken is a transition of the state of the label. -/
theorem exists_take_of_ok {m m' : Machine} (h : m.step = .ok m') :
    ∃ state t, m.automaton.states.get? m.label = some state ∧ state.on m.symbol = some t ∧
      m' = m.take t := by
  have hcase := m.stepCase
  rw [h] at hcase
  cases hcase with
  | @taken state t _ hs ht => exact ⟨state, t, hs, ht, rfl⟩

/-- A step stores no blank. -/
theorem sparse_step {m m' : Machine} (hm : m.tape.Sparse) (h : m.step = .ok m') :
    m'.tape.Sparse := by
  obtain ⟨state, t, -, -, rfl⟩ := exists_take_of_ok h
  exact hm.act t.write t.move

end Machine

/-! ## Repeated steps -/

def stepOrStay {σ ε : Type} (step : σ → Except ε σ) (s : σ) : σ := (step s).toOption.getD s

namespace Machine

/-- The machine after `n` steps, or after all its steps if there are fewer. -/
def after (n : Nat) (m : Machine) : Machine := (stepOrStay step)^[n] m

@[simp] theorem after_zero (m : Machine) : m.after 0 = m := rfl

theorem after_succ_of_ok {m m' : Machine} (h : m.step = .ok m') (n : Nat) :
    m.after (n + 1) = m'.after n := by
  have hstay : stepOrStay step m = m' := by
    rw [stepOrStay, h]
    rfl
  rw [after, Function.iterate_succ_apply, hstay]
  rfl

/-- A machine that takes no step stays as it is. -/
theorem after_of_error {m : Machine} {halt : Halt} (h : m.step = .error halt) (n : Nat) :
    m.after n = m := by
  have hstay : stepOrStay step m = m := by
    rw [stepOrStay, h]
    rfl
  exact Function.iterate_fixed hstay n

theorem advance_of_error {m : Machine} {halt : Halt} (h : m.step = .error halt) (n : Nat) :
    m.advance (n + 1) = (m, some halt) := by
  rw [advance, run_takeStep_of_error h]

theorem advance_succ_of_ok {m m' : Machine} (h : m.step = .ok m') (n : Nat) :
    m.advance (n + 1) = m'.advance n := by
  rw [advance, run_takeStep_of_ok h]

theorem trace_of_error {m : Machine} {halt : Halt} (h : m.step = .error halt) (n : Nat) :
    m.trace (n + 1) = ([], m) := by
  rw [trace, run_takeStep_of_error h]

theorem trace_succ_of_ok {m m' : Machine} (h : m.step = .ok m') (n : Nat) :
    m.trace (n + 1) = (m'.configuration :: (m'.trace n).1, (m'.trace n).2) := by
  rw [trace, run_takeStep_of_ok h]

theorem after_add (b c : Nat) (m : Machine) : m.after (b + c) = (m.after b).after c := by
  rw [after, Nat.add_comm, Function.iterate_add_apply]
  rfl

end Machine

/-- Erases letters from left to right and accepts at the first blank.  It defines the label of a
machine that has rejected, which no machine leaves. -/
def Automaton.eraser : Automaton where
  alphabet := ['a', 'b']
  initial := "erase"
  states := .ofList
    [("erase", .variable (.ofList
        [(.letter 'a', ⟨"erase", some .blank, some .right⟩),
          (.letter 'b', ⟨"erase", some .blank, some .right⟩),
          (.blank, ⟨Label.accept, none, none⟩)])),
      (Label.reject, .constant ⟨"erase", some (.letter 'a'), some .left⟩)]

end TapeLang
