import TapeLang.CommandLine
import TapeLang.Proofs.Budget
import TapeLang.Proofs.Longest

/-!
Runs that print every configuration.

With the debug option the command line steps the machine itself and asks for a run of no steps if
the budget is used up, while without it one run with the whole budget decides.  The two ways lead
to the same machine and the same outcome (`CommandLine.runNarrated_eq`), so what is printed
differs only by the lines of the configurations.  Everything that ends a command before there is a
machine happens before the two ways part.
-/

namespace TapeLang
namespace CommandLine

/-- The lines of the configurations after each of the first `n` steps. -/
def stepLines (m : Machine) (n : Nat) : String :=
  String.join ((List.range n).map fun i =>
    configurationLine (m.after (i + 1)).steps (m.after (i + 1)).configuration)

theorem stepLines_succ_of_ok {m m' : Machine} (h : m.step = .ok m') (n : Nat) :
    stepLines m (n + 1) = configurationLine m'.steps m'.configuration ++ stepLines m' n := by
  simp only [stepLines, List.range_succ_eq_map, List.map_cons, List.map_map, String.join_cons,
    Machine.after_succ_of_ok h, Machine.after_zero, Function.comp_def, Nat.succ_eq_add_one]

/-- Stepping with a commentary leaves what stepping leaves, and a line for each step taken. -/
theorem narrate_eq (out : String) (n : Nat) (m : Machine) :
    narrate out n m = (out ++ stepLines m (m.trace n).1.length, m.advance n) := by
  induction n generalizing out m with
  | zero =>
    show (out, m, none) = (out ++ "", m, none)
    rw [String.append_empty]
  | succ n ih =>
    cases hstep : m.step with
    | error halt =>
      rw [narrate, Machine.run_takeStep_of_error hstep, Machine.trace_of_error hstep,
        Machine.advance_of_error hstep]
      show (out, m, some halt) = (out ++ "", m, some halt)
      rw [String.append_empty]
    | ok m' =>
      rw [narrate, Machine.run_takeStep_of_ok hstep, Machine.trace_succ_of_ok hstep,
        Machine.advance_succ_of_ok hstep]
      dsimp only
      rw [ih, List.length_cons, stepLines_succ_of_ok hstep, String.append_assoc]

/-- A run of no steps tells of a machine that used up its budget what the run that led there
tells. -/
theorem runNarrated_eq (n : Nat) (m : Machine) :
    runNarrated n m = (configurationLine m.steps m.configuration ++
      stepLines m (m.trace n).1.length, (runSilently n m).2) := by
  rw [runNarrated, narrate_eq, runSilently, Machine.run]
  cases m.advance n with
  | mk m' halt =>
    cases halt with
    | none => rfl
    | some halt => rfl

theorem execute_code (program input : String) (n : Nat) (debug : Bool) (m : Machine) :
    (execute ⟨program, input, n, debug, false⟩ m).code = exitCode (m.run n).1.outcome := by
  cases debug with
  | true => simp only [execute, runNarrated_eq, runSilently, if_true]
  | false => simp only [execute, runSilently, Bool.false_eq_true, if_false]

def Holds (contents : Except PathError ByteArray) (text : String) : Prop :=
  ∃ bytes, contents = .ok bytes ∧ String.fromUTF8? bytes = some text

def Creates (contents : Except PathError ByteArray) (input : String) (m : Machine) : Prop :=
  ∃ text a, Holds contents text ∧ text.utf8ByteSize ≤ maxProgramSize ∧
    Program.compileText text = .ok a ∧ Machine.create a (Symbol.ofTape input) = .ok m

/-- The reasons why there is nothing to run. -/
inductive Refused (contents : Except PathError ByteArray) (input : String) : Prop
  | unreadable (h : ∀ text, ¬ Holds contents text)
  | tooLarge {text} (h : Holds contents text) (hs : maxProgramSize < text.utf8ByteSize)
  | wrong {text report} (h : Holds contents text) (hc : Program.compileText text = .error report)
  | badInput {text a e} (h : Holds contents text) (hc : Program.compileText text = .ok a)
    (hm : Machine.create a (Symbol.ofTape input) = .error e)

variable {contents : Except PathError ByteArray} {input text : String}

theorem decodeSource_of_holds (h : Holds contents text) (program : String) :
    decodeSource program contents =
      if text.utf8ByteSize > maxProgramSize then .error (.tooLarge program text.utf8ByteSize)
      else .ok text := by
  obtain ⟨bytes, rfl, htext⟩ := h
  rw [decodeSource, htext]

/-- What cannot be read is refused as such. -/
theorem exists_decodeSource_eq_error (h : ∀ text, ¬ Holds contents text) (program : String) :
    ∃ problem, decodeSource program contents = .error problem := by
  cases contents with
  | error cause => exact ⟨_, rfl⟩
  | ok bytes =>
    cases htext : String.fromUTF8? bytes with
    | some text => exact absurd ⟨bytes, rfl, htext⟩ (h text)
    | none =>
      rw [decodeSource, htext]
      exact ⟨_, rfl⟩

theorem run_of_creates {m : Machine} (h : Creates contents input m) (program : String) (n : Nat)
    (debug : Bool) :
    run ⟨program, input, n, debug, false⟩ (decodeSource program contents) =
      execute ⟨program, input, n, debug, false⟩ m := by
  obtain ⟨text, a, htext, hs, hc, hm⟩ := h
  have hcompile : compileSource (decodeSource program contents) = .ok a := by
    rw [decodeSource_of_holds htext, if_neg (Nat.not_lt.mpr hs), compileSource, hc]
    rfl
  rw [run, hcompile]
  dsimp only
  rw [hm]
  rfl

theorem exists_failure_of_error {source : Except FileProblem String} {e : LoadError}
    (h : compileSource source = .error e) (program input : String) :
    ∃ message, ∀ n debug, run ⟨program, input, n, debug, false⟩ source = failure message := by
  refine ⟨program ++ ": " ++ e.message, fun n debug => ?_⟩
  rw [run, h]

/-- What a refused command says does not depend on how the machine would have been run. -/
theorem run_of_refused (h : Refused contents input) (program : String) :
    ∃ message, ∀ n debug,
      run ⟨program, input, n, debug, false⟩ (decodeSource program contents) = failure message := by
  cases h with
  | unreadable h =>
    obtain ⟨problem, hproblem⟩ := exists_decodeSource_eq_error h program
    rw [hproblem]
    exact exists_failure_of_error rfl program input
  | tooLarge h hs =>
    rw [decodeSource_of_holds h, if_pos hs]
    exact exists_failure_of_error rfl program input
  | @wrong text report h hc =>
    have hcompile : compileSource (.ok text) = .error (.text report) := by
      rw [compileSource, hc]
      rfl
    rw [decodeSource_of_holds h]
    split
    · exact exists_failure_of_error rfl program input
    · exact exists_failure_of_error hcompile program input
  | @badInput text a e h hc hm =>
    have hcompile : compileSource (.ok text) = .ok a := by
      rw [compileSource, hc]
      rfl
    rw [decodeSource_of_holds h]
    split
    · exact exists_failure_of_error rfl program input
    · refine ⟨e.message, fun n debug => ?_⟩
      rw [run, hcompile]
      dsimp only
      rw [hm]
      rfl

theorem Creates.steps {m : Machine} (h : Creates contents input m) : m.steps = 0 := by
  obtain ⟨text, a, -, -, -, hm⟩ := h
  rw [Machine.create_eq_ok hm]
  rfl

theorem exitCode_ne_two (o : Outcome) : exitCode o ≠ 2 := by
  cases o <;> simp [exitCode]

/-- A command that has a machine to run is not refused: the exit codes differ. -/
theorem Creates.not_refused {m : Machine} (h : Creates contents input m) :
    ¬ Refused contents input := by
  intro hrefused
  obtain ⟨message, hmessage⟩ := run_of_refused hrefused ""
  have hcode := congrArg Exit.code ((run_of_creates h "" 0 false).symm.trans (hmessage 0 false))
  rw [execute_code] at hcode
  exact exitCode_ne_two _ hcode

/-! ## The two ways compared -/

end CommandLine
end TapeLang
