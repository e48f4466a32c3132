import TapeLang.Automaton
import TapeLang.Tape

/-!
Running an automaton.

A call acts on a machine and answers or refuses, and either way it leaves a machine behind.
`takeStep` takes one step; `advance`, `run` and `trace` repeat it within a budget and differ only
in what they return.  A machine that has halted, or that has no transition to take, is not changed
by any of them.  `step` and `load` forget what a refused call leaves.
-/

namespace TapeLang

/-- Why a machine that has not halted cannot take a step. -/
inductive Fault where
  | undefinedTransition (state : Label) (symbol : Symbol)
  | invalidState (label : Label)
deriving DecidableEq

def Fault.message : Fault → String
  | .undefinedTransition state symbol =>
    "No transition defined for state " ++ state ++ " and symbol " ++ symbol.text
  | .invalidState label => "Invalid state: " ++ label

inductive Halt where
  | accept
  | reject
  | fault (f : Fault)
deriving DecidableEq

inductive Outcome where
  | accept
  | reject
  | timeout
  | fault (f : Fault)
deriving DecidableEq

def Halt.outcome : Halt → Outcome
  | .accept => .accept
  | .reject => .reject
  | .fault f => .fault f

/-- What can be seen of a machine at one moment. -/
structure Configuration where
  label : Label
  head : Int
  symbol : Symbol
deriving DecidableEq

structure RunResult where
  outcome : Outcome
  window : String
  steps : Nat
deriving DecidableEq

structure InvalidInput where
  char : Char
deriving DecidableEq

def InvalidInput.message (e : InvalidInput) : String :=
  "Invalid input symbol '" ++ String.singleton e.char ++ "'"

/-- An automaton at work: the input it was given, where it is, its tape, and the number of
steps since it was started. -/
structure Machine where
  automaton : Automaton
  input : List Symbol
  label : Label
  tape : Tape
  steps : Nat
deriving DecidableEq

namespace Machine

def start (automaton : Automaton) (input : List Symbol) : Machine :=
  ⟨automaton, input, automaton.initial, .ofSymbols input, 0⟩

def checkInput (automaton : Automaton) (input : List Symbol) : Except InvalidInput Unit :=
  match input.find? (fun s => !automaton.accepts s) with
  | some s => .error ⟨s.toChar⟩
  | none => .ok ()

def create (automaton : Automaton) (input : List Symbol) : Except InvalidInput Machine := do
  checkInput automaton input
  return start automaton input

def reset (m : Machine) : Machine := start m.automaton m.input

/-- Start again with another input.  A refused input leaves the old one. -/
def takeInput (input : List Symbol) : ExceptT InvalidInput (StateM Machine) Unit := do
  checkInput (← get).automaton input
  modify fun m => { m with input := input }
  modify reset

def head (m : Machine) : Int := m.tape.head

def symbol (m : Machine) : Symbol := m.tape.here

def configuration (m : Machine) : Configuration := ⟨m.label, m.head, m.symbol⟩

def isHalted (m : Machine) : Bool := Label.isTerminal m.label

def pending (m : Machine) : Except Fault Transition :=
  match m.automaton.states.get? m.label with
  | none => .error (.invalidState m.label)
  | some (.constant t) => .ok t
  | some (.variable table) =>
    match table.get? m.symbol with
    | some t => .ok t
    | none => .error (.undefinedTransition m.label m.symbol)

def take (m : Machine) (t : Transition) : Machine :=
  { m with label := t.next, tape := m.tape.act t.write t.move, steps := m.steps + 1 }

/-- The transition that a step takes, or the reason why there is no step. -/
def due (m : Machine) : Except Halt Transition :=
  if m.label = Label.accept then .error .accept
  else if m.label = Label.reject then .error .reject
  else m.pending.mapError .fault

/-- Take a step and tell what is seen then. -/
def takeStep : ExceptT Halt (StateM Machine) Configuration := do
  let t ← (← get).due
  modify (take · t)
  return (← get).configuration

/-- As many as `n` steps, and the reason why there were fewer. -/
def advance : Nat → Machine → Machine × Option Halt
  | 0, m => (m, none)
  | n + 1, m =>
    match takeStep.run m with
    | (.ok _, m') => advance n m'
    | (.error halt, m') => (m', some halt)

/-- How a run ended that was stopped by `halt` or by its budget. -/
def outcome (m : Machine) : Option Halt → Outcome
  | some halt => halt.outcome
  | none =>
    if m.label = Label.accept then .accept
    else if m.label = Label.reject then .reject
    else .timeout

def result (m : Machine) (halt : Option Halt) : RunResult :=
  ⟨m.outcome halt, m.tape.window, m.steps⟩

def run (n : Nat) (m : Machine) : RunResult × Machine :=
  let (m', halt) := m.advance n
  (m'.result halt, m')

def trace : Nat → Machine → List Configuration × Machine
  | 0, m => ([], m)
  | n + 1, m =>
    match takeStep.run m with
    | (.ok seen, m') =>
      let (cs, last) := trace n m'
      (seen :: cs, last)
    | (.error _, m') => ([], m')

/-- The machine after a call that is not refused. -/
def led {ε α : Type} (call : ExceptT ε (StateM Machine) α) (m : Machine) : Except ε Machine :=
  match call.run m with
  | (.ok _, m') => .ok m'
  | (.error e, _) => .error e

def step : Machine → Except Halt Machine := led takeStep

def load (m : Machine) (input : List Symbol) : Except InvalidInput Machine :=
  led (takeInput input) m

end Machine

def defaultBudget : Nat := 10000

/-- The symbols of a tape written cell by cell. -/
def Symbol.ofTape (text : String) : List Symbol := text.toList.map Symbol.ofChar

def Automaton.run (a : Automaton) (input : String) (budget : Nat) :
    Except InvalidInput RunResult := do
  return ((← Machine.create a (Symbol.ofTape input)).run budget).1

end TapeLang
