import TapeLang.Proofs.Calls

/-!
Starting a machine again.

A machine keeps the input it was last given.  Steps and runs do not touch it, a reset starts from
it, and an input is replaced only by one that is accepted as a whole: a refused input leaves the
machine as it was.  So a reset, after whatever was done, gives the machine that is created from
the last input that was loaded, or from the first one if none was.
-/

namespace TapeLang

namespace Automaton

/-- The characters that an input may hold: the blank's and the letters of the alphabet. -/
def Takes (a : Automaton) (c : Char) : Prop := c = Symbol.blankChar ∨ c ∈ a.alphabet

theorem accepts_ofChar {a : Automaton} {c : Char} : a.accepts (.ofChar c) ↔ a.Takes c := by
  unfold Symbol.ofChar Takes
  by_cases hc : c = Symbol.blankChar
  · rw [if_pos hc]
    exact iff_of_true rfl (.inl hc)
  · rw [if_neg hc, accepts, List.contains_iff_mem]
    exact ⟨.inr, fun h => h.resolve_left hc⟩

end Automaton

namespace Machine

theorem create_of_accepts {a : Automaton} {input : List Symbol} (h : ∀ s ∈ input, a.accepts s) :
    create a input = .ok (start a input) := by
  have hfind : input.find? (fun s => !a.accepts s) = none := by
    rw [List.find?_eq_none]
    intro s hs
    simp [h s hs]
  rw [create, checkInput, hfind]
  rfl

/-- An input is refused for its first character that the automaton does not take. -/
theorem create_eq_error_iff {a : Automaton} {input : String} {c : Char} :
    create a (Symbol.ofTape input) = .error ⟨c⟩ ↔
      ∃ before after, input.toList = before ++ c :: after ∧ (∀ d ∈ before, a.Takes d) ∧
        ¬ a.Takes c := by
  have hcreate : create a (Symbol.ofTape input) = .error ⟨c⟩ ↔
      input.toList.find? (fun d => !a.accepts (.ofChar d)) = some c := by
    rw [create, checkInput, Symbol.ofTape, List.find?_map]
    change _ ↔ input.toList.find? ((fun s => !a.accepts s) ∘ Symbol.ofChar) = some c
    cases input.toList.find? ((fun s => !a.accepts s) ∘ Symbol.ofChar) with
    | none => exact iff_of_false (fun h => by cases h) (fun h => by cases h)
    | some d =>
      show (Except.error ⟨(Symbol.ofChar d).toChar⟩ : Except InvalidInput Machine) = _ ↔ _
      rw [Symbol.toChar_ofChar, Except.error.injEq, InvalidInput.mk.injEq, Option.some.injEq]
  rw [hcreate, List.find?_eq_some_iff_append]
  simp only [Bool.not_eq_true', Bool.not_not, ← Automaton.accepts_ofChar, Bool.not_eq_true]
  constructor
  · rintro ⟨hc, before, after, htext, hbefore⟩
    exact ⟨before, after, htext, hbefore, hc⟩
  · rintro ⟨before, after, htext, hbefore, hc⟩
    exact ⟨hc, before, after, htext, hbefore⟩

/-- The input that a call loads, if it is a load and the input is accepted. -/
def Call.loads (m : Machine) : Call → Option String
  | .load input => if (m.load (Symbol.ofTape input)).isOk then some input else none
  | _ => none

def loaded (m : Machine) : List Call → List String
  | [] => []
  | call :: calls => (call.loads m).toList ++ (m.perform call).loaded calls

/-- Steps do not touch the input. -/
theorem input_after (m : Machine) (n : Nat) : (m.after n).input = m.input := by
  induction n generalizing m with
  | zero => rfl
  | succ n ih =>
    cases hm : m.step with
    | error halt => rw [after_of_error hm]
    | ok m' =>
      obtain ⟨_, t, -, -, rfl⟩ := exists_take_of_ok hm
      rw [after_succ_of_ok hm, ih]
      rfl

/-- A call changes the input only if it loads one. -/
theorem input_perform (m : Machine) (call : Call) :
    (m.perform call).input = (call.loads m).elim m.input Symbol.ofTape := by
  cases call with
  | step =>
    rw [perform_step]
    exact input_after m 1
  | run budget =>
    rw [perform, run_machine]
    exact input_after m budget
  | next =>
    rw [perform, trace_machine]
    exact input_after m 1
  | reset => rfl
  | load input =>
    rw [Call.loads]
    cases hload : m.load (Symbol.ofTape input) with
    | error e =>
      rw [perform_load_of_error hload]
      rfl
    | ok m' =>
      rw [perform_load_of_ok hload]
      rw [load_eq] at hload
      rw [create_eq_ok hload]
      rfl

/-- After a sequence of calls the input is the last one that was loaded. -/
theorem input_performAll {m : Machine} {text : String} (h : m.input = Symbol.ofTape text)
    (calls : List Call) :
    (m.performAll calls).input = Symbol.ofTape ((m.loaded calls).getLastD text) := by
  induction calls generalizing m text with
  | nil => exact h
  | cons call calls ih =>
    have hinput : (m.perform call).input = Symbol.ofTape ((call.loads m).getD text) := by
      rw [input_perform, h]
      cases call.loads m <;> rfl
    have hlast : (m.loaded (call :: calls)).getLastD text =
        ((m.perform call).loaded calls).getLastD ((call.loads m).getD text) := by
      rw [loaded]
      cases call.loads m with
      | none => rfl
      | some input => exact List.getLastD_cons
    rw [hlast]
    exact ih hinput

/-- An input is refused exactly for its first character that is neither blank nor a letter of the
alphabet, and the machine is then what it was.  Whatever was done with a machine, a reset gives
the one that is created from the last input that was loaded, or from the first input if no other
was loaded. -/
theorem create_of_calls {a : Automaton} {text : String} {m : Machine}
    (h : create a (Symbol.ofTape text) = .ok m) (calls : List Call) :
    (∀ input c, (m.performAll calls).load (Symbol.ofTape input) = .error ⟨c⟩ ↔
      ∃ before after, input.toList = before ++ c :: after ∧ (∀ d ∈ before, a.Takes d) ∧
        ¬ a.Takes c) ∧
    (∀ input e, (m.performAll calls).load (Symbol.ofTape input) = .error e →
      (m.performAll calls).perform (.load input) = m.performAll calls) ∧
    create a (Symbol.ofTape ((m.loaded calls).getLastD text)) =
      .ok ((m.performAll calls).perform .reset) := by
  have hreaches : a.Reaches (m.performAll calls) := ⟨_, m, calls, h, rfl⟩
  have hkept := hreaches.keeps (P := fun _ => True) (fun _ => trivial) (fun _ _ _ => trivial)
  refine ⟨fun input c => ?_, fun input e he => perform_load_of_error he, ?_⟩
  · rw [load_eq, hkept.automaton]
    exact create_eq_error_iff
  · have hinput : m.input = Symbol.ofTape text := by
      rw [create_eq_ok h]
      rfl
    have haccepts := hkept.input
    rw [input_performAll hinput] at haccepts
    rw [create_of_accepts haccepts, perform, reset, hkept.automaton, input_performAll hinput]

/-- Two inputs are refused here, and the last one that is loaded is not the last one given. -/
theorem create_of_calls_eraser :
    ∃ m, create Automaton.eraser (Symbol.ofTape "ba") = .ok m ∧
      create Automaton.eraser (Symbol.ofTape "_ab") = .ok ((m.performAll
        [.load "axb", .step, .load "_ab", .run 2, .load "ab-", .next]).perform .reset) := by
  have hcreate : create Automaton.eraser (Symbol.ofTape "ba") =
      .ok (start Automaton.eraser (Symbol.ofTape "ba")) := by decide +kernel
  have hloaded : ((start Automaton.eraser (Symbol.ofTape "ba")).loaded
      [.load "axb", .step, .load "_ab", .run 2, .load "ab-", .next]) = ["_ab"] := by
    decide +kernel
  refine ⟨_, hcreate, ?_⟩
  have hreset := (create_of_calls hcreate
    [.load "axb", .step, .load "_ab", .run 2, .load "ab-", .next]).2.2
  rwa [hloaded] at hreset

end Machine
end TapeLang
