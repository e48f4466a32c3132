import TapeLang.Automaton.Json
import TapeLang.Files
import TapeLang.Machine

/-!
The command line: compile one program and run it on one input, or print its automaton.

`run` is a function of the options and of what reading the program gives.  With the debug
option the machine is stepped here and every configuration is printed as it is reached; without
it `Machine.run` does the work.
-/

namespace TapeLang
namespace CommandLine

structure Options where
  program : String
  input : String := ""
  maxSteps : Nat := defaultBudget
  debug : Bool := false
  emitJson : Bool := false

structure Exit where
  code : Nat
  out : String
  err : String
deriving DecidableEq

def line (s : String) : String := s ++ "\n"

def configurationLine (step : Nat) (c : Configuration) : String :=
  line ("Step: " ++ toString step ++ ", State: " ++ c.label ++ ", Head: " ++ toString c.head ++
    ", Symbol: " ++ c.symbol.text)

/-- Take as many as `n` steps and print where each of them leads, after what was printed before.
Returns what was printed, the machine, and the reason why there were fewer steps. -/
def narrate (out : String) : Nat → Machine → String × Machine × Option Halt
  | 0, m => (out, m, none)
  | n + 1, m =>
    match Machine.takeStep.run m with
    | (.ok seen, m') => narrate (out ++ configurationLine m'.steps seen) n m'
    | (.error halt, m') => (out, m', some halt)

def outcomeText (steps : Nat) : Outcome → String
  | .accept => "accept"
  | .reject => "reject"
  | .timeout => "timeout after " ++ toString steps ++ " steps"
  | .fault f => "fault: " ++ f.message

def exitCode : Outcome → Nat
  | .accept => 0
  | _ => 1

/-- Run a machine, printing every configuration.  A run of no steps tells how it ended if the
budget was used up. -/
def runNarrated (budget : Nat) (m : Machine) : String × Machine × Outcome :=
  match narrate (configurationLine m.steps m.configuration) budget m with
  | (out, m', some halt) => (out, m', halt.outcome)
  | (out, m', none) =>
    let (result, m'') := m'.run 0
    (out, m'', result.outcome)

def runSilently (budget : Nat) (m : Machine) : String × Machine × Outcome :=
  let (result, m') := m.run budget
  ("", m', result.outcome)

def execute (options : Options) (m : Machine) : Exit :=
  let (out, m', outcome) :=
    if options.debug then runNarrated options.maxSteps m else runSilently options.maxSteps m
  ⟨exitCode outcome,
    out ++ line (outcomeText m'.steps outcome) ++ line m'.tape.window, ""⟩

def failure (message : String) : Exit := ⟨2, "", line message⟩

/-- Compile and run, `source` being what reading the program file gives. -/
def run (options : Options) (source : Except FileProblem String) : Exit :=
  match compileSource source with
  | .error e => failure (options.program ++ ": " ++ e.message)
  | .ok a =>
    if options.emitJson then ⟨0, line a.encode, ""⟩
    else match Machine.create a (Symbol.ofTape options.input) with
      | .error e => failure e.message
      | .ok m => execute options m

structure Arguments where
  program : Option String := none
  input : String := ""
  maxSteps : Nat := defaultBudget
  debug : Bool := false
  emitJson : Bool := false

def Arguments.options? (a : Arguments) : Option Options :=
  a.program.map fun program => ⟨program, a.input, a.maxSteps, a.debug, a.emitJson⟩

def readArguments (a : Arguments) : List String → Option Arguments
  | [] => some a
  | "-d" :: rest => readArguments { a with debug := true } rest
  | "--debug" :: rest => readArguments { a with debug := true } rest
  | "--emit-json" :: rest => readArguments { a with emitJson := true } rest
  | flag :: value :: rest =>
    if flag = "-p" ∨ flag = "--program" then
      readArguments { a with program := some value } rest
    else if flag = "-i" ∨ flag = "--input" then
      readArguments { a with input := value } rest
    else if flag = "-m" ∨ flag = "--max-steps" then
      if value ≠ "" ∧ value.toList.all Char.isDigit then
        readArguments { a with maxSteps := value.toNat?.getD 0 } rest
      else none
    else none
  | [_] => none

def usage : String :=
  "Usage: tapelang --program <PROGRAM> [--input <INPUT>] [--max-steps <N>] [--debug] [--emit-json]"

def parseArguments (args : List String) : Option Options := do
  (← readArguments {} args).options?

end CommandLine
end TapeLang
