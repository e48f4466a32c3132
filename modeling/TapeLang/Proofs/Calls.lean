import TapeLang.Proofs.Budget

/-!
Sequences of calls on a machine.

A machine is stepped, run, traced, reset and given other inputs in any order.  Whatever is done,
it goes on from where it is or starts again with an input that was accepted.  So what holds at
every start and is kept by a step holds of every machine that calls can lead to
(`Automaton.Reaches.keeps`).
-/

namespace TapeLang

namespace Machine

inductive Call where
  | step
  | run (budget : Nat)
  | next
  | reset
  | load (input : String)
deriving DecidableEq

/-- The machine after a call, also if the call is refused. -/
def perform (m : Machine) : Call → Machine
  | .step => (takeStep.run m).2
  | .run budget => (m.run budget).2
  | .next => (m.trace 1).2
  | .reset => m.reset
  | .load input => ((takeInput (Symbol.ofTape input)).run m).2

def performAll (m : Machine) (calls : List Call) : Machine := calls.foldl perform m

theorem run_takeInput (input : List Symbol) (m : Machine) : (takeInput input).run m = (do
    checkInput m.automaton input
    modify fun m => { m with input := input }
    modify reset : ExceptT InvalidInput (StateM Machine) Unit).run m := rfl

/-- An input that is refused leaves the machine as it is. -/
theorem run_takeInput_of_check_error {m : Machine} {input : List Symbol} {e : InvalidInput}
    (h : checkInput m.automaton input = .error e) :
    (takeInput input).run m = (.error e, m) := by
  rw [run_takeInput, h]
  rfl

theorem run_takeInput_of_check {m : Machine} {input : List Symbol}
    (h : checkInput m.automaton input = .ok ()) :
    (takeInput input).run m = (.ok (), start m.automaton input) := by
  rw [run_takeInput, h]
  rfl

/-- Another input is accepted as the first one is. -/
theorem load_eq (m : Machine) (input : List Symbol) : m.load input = create m.automaton input := by
  rw [load, create]
  cases h : checkInput m.automaton input with
  | error e =>
    rw [led, run_takeInput_of_check_error h]
    rfl
  | ok u =>
    rw [led, run_takeInput_of_check h]
    rfl

theorem perform_step_of_error {m : Machine} {halt : Halt} (h : m.step = .error halt) :
    m.perform .step = m := by
  rw [perform, run_takeStep_of_error h]

theorem perform_step_of_ok {m m' : Machine} (h : m.step = .ok m') : m.perform .step = m' := by
  rw [perform, run_takeStep_of_ok h]

theorem perform_step (m : Machine) : m.perform .step = m.after 1 := by
  cases h : m.step with
  | error halt => rw [perform_step_of_error h, after_of_error h]
  | ok m' => rw [perform_step_of_ok h, after_succ_of_ok h, after_zero]

theorem perform_load_of_error {m : Machine} {text : String} {e : InvalidInput}
    (h : m.load (Symbol.ofTape text) = .error e) : m.perform (.load text) = m := by
  rw [load_eq, create] at h
  cases hcheck : checkInput m.automaton (Symbol.ofTape text) with
  | error e' => rw [perform, run_takeInput_of_check_error hcheck]
  | ok u =>
    rw [hcheck] at h
    cases h

theorem perform_load_of_ok {m m' : Machine} {text : String}
    (h : m.load (Symbol.ofTape text) = .ok m') : m.perform (.load text) = m' := by
  rw [load_eq, create] at h
  cases hcheck : checkInput m.automaton (Symbol.ofTape text) with
  | error e =>
    rw [hcheck] at h
    cases h
  | ok u =>
    rw [hcheck] at h
    cases h
    rw [perform, run_takeInput_of_check hcheck]

/-- A call takes some steps or starts again, with the old input or with one that is accepted. -/
theorem perform_cases (m : Machine) (call : Call) :
    (∃ n, m.perform call = m.after n) ∨ ∃ input, m.perform call = start m.automaton input ∧
      (input = m.input ∨ ∀ s ∈ input, m.automaton.accepts s) := by
  cases call with
  | step => exact .inl ⟨1, m.perform_step⟩
  | run budget => exact .inl ⟨budget, run_machine budget m⟩
  | next => exact .inl ⟨1, trace_machine 1 m⟩
  | reset => exact .inr ⟨m.input, rfl, .inl rfl⟩
  | load text =>
    cases hload : m.load (Symbol.ofTape text) with
    | error e => exact .inl ⟨0, perform_load_of_error hload⟩
    | ok m' =>
      rw [perform_load_of_ok hload]
      rw [load_eq] at hload
      exact .inr ⟨Symbol.ofTape text, create_eq_ok hload, .inr (accepts_of_create hload)⟩

/-- A machine of an automaton that has a property, with an input that can be started again. -/
structure Kept (a : Automaton) (P : Machine → Prop) (m : Machine) : Prop where
  automaton : m.automaton = a
  input : ∀ s ∈ m.input, a.accepts s
  property : P m

section

variable {a : Automaton} {P : Machine → Prop}

theorem Kept.step {m m' : Machine}
    (hstep : ∀ {m m' : Machine}, m.automaton = a → P m → m.step = .ok m' → P m')
    (h : Kept a P m) (hm : m.step = .ok m') : Kept a P m' := by
  have hP := hstep h.automaton h.property hm
  obtain ⟨state, t, -, -, rfl⟩ := exists_take_of_ok hm
  exact ⟨h.automaton, h.input, hP⟩

theorem Kept.after {m : Machine}
    (hstep : ∀ {m m' : Machine}, m.automaton = a → P m → m.step = .ok m' → P m')
    (h : Kept a P m) (n : Nat) : Kept a P (m.after n) := by
  induction n generalizing m with
  | zero => exact h
  | succ n ih =>
    cases hm : m.step with
    | error halt =>
      rw [after_of_error hm]
      exact h
    | ok m' =>
      rw [after_succ_of_ok hm]
      exact ih (h.step hstep hm)

/-- What holds at every start and is kept by a step holds after every sequence of calls. -/
theorem performAll_keeps
    (hstart : ∀ {input : List Symbol}, (∀ s ∈ input, a.accepts s) → P (start a input))
    (hstep : ∀ {m m' : Machine}, m.automaton = a → P m → m.step = .ok m' → P m')
    {m : Machine} (h : Kept a P m) (calls : List Call) : Kept a P (m.performAll calls) := by
  induction calls generalizing m with
  | nil => exact h
  | cons call calls ih =>
    refine ih ?_
    rcases m.perform_cases call with ⟨n, hn⟩ | ⟨next, hnext, haccepts⟩
    · rw [hn]
      exact h.after hstep n
    · have hinput : ∀ s ∈ next, a.accepts s := by
        rw [h.automaton] at haccepts
        rcases haccepts with heq | haccepts
        · rw [heq]
          exact h.input
        · exact haccepts
      rw [hnext, h.automaton]
      exact ⟨rfl, hinput, hstart hinput⟩

end

end Machine

namespace Automaton

/-- A machine that some sequence of calls leads to, from some input that is accepted. -/
def Reaches (a : Automaton) (m : Machine) : Prop :=
  ∃ input m₀ calls, Machine.create a input = .ok m₀ ∧ m = m₀.performAll calls

variable {a : Automaton} {m : Machine}

theorem Reaches.keeps {P : Machine → Prop} (hm : a.Reaches m)
    (hstart : ∀ {input : List Symbol}, (∀ s ∈ input, a.accepts s) → P (.start a input))
    (hstep : ∀ {m m' : Machine}, m.automaton = a → P m → m.step = .ok m' → P m') :
    m.Kept a P := by
  obtain ⟨input, m₀, calls, hcreate, rfl⟩ := hm
  have hinput := Machine.accepts_of_create hcreate
  rw [Machine.create_eq_ok hcreate]
  exact Machine.performAll_keeps hstart hstep ⟨rfl, hinput, hstart hinput⟩ calls

theorem Reaches.automaton (hm : a.Reaches m) : m.automaton = a :=
  (hm.keeps (P := fun _ => True) (fun _ => trivial) (fun _ _ _ => trivial)).automaton

theorem Reaches.perform (hm : a.Reaches m) (call : Machine.Call) :
    a.Reaches (m.perform call) := by
  obtain ⟨input, m₀, calls, hcreate, rfl⟩ := hm
  refine ⟨input, m₀, calls ++ [call], hcreate, ?_⟩
  rw [Machine.performAll, Machine.performAll, List.foldl_append]
  rfl

end Automaton

end TapeLang
