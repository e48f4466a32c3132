import TapeLang.Automaton
import TapeLang.Text.Quoted

/-!
Which automata can be run safely.

`Automaton.problems` lists the faults of an automaton: letters that are none or are repeated,
an initial label that is not defined, targets that are not defined (one fault for all of
them), and symbols outside the alphabet, state by state in the order of the labels.  An
automaton is accepted if the list is empty, and otherwise its first fault is reported.
-/

namespace TapeLang

inductive Automaton.Problem where
  | badLetter (c : Char)
  | repeatedLetter (c : Char)
  | undefinedInitial (label : Label)
  | undefinedTargets (labels : List Label)
  | matchesOutside (label : Label) (symbol : Symbol)
  | writesOutside (label : Label) (symbol : Symbol)
deriving DecidableEq

namespace Automaton

def Problem.text : Problem → String
  | .badLetter c => "Invalid alphabet letter '" ++ String.singleton c ++ "'"
  | .repeatedLetter c => "Duplicate alphabet letter '" ++ String.singleton c ++ "'"
  | .undefinedInitial label => "Invalid initial state: " ++ label
  | .undefinedTargets labels =>
    "Transitions reference undefined states: " ++ Text.quotedList labels
  | .matchesOutside label symbol =>
    "State " ++ label ++ " matches symbol " ++ symbol.text ++ " outside the alphabet"
  | .writesOutside label symbol =>
    "State " ++ label ++ " writes symbol " ++ symbol.text ++ " outside the alphabet"

def Problem.message (p : Problem) : String := "Model validation error: " ++ p.text

/-- The faults of some letters, `seen` being the letters before them. -/
def letterProblems (seen : List Char) : List Char → List Problem
  | [] => []
  | c :: rest =>
    (if isLetter c then [] else [.badLetter c]) ++
      (if c ∈ seen then [.repeatedLetter c] else []) ++
      letterProblems (c :: seen) rest

def defines (a : Automaton) (l : Label) : Bool := Label.isTerminal l || a.states.contains l

/-- The targets that are not defined, each once, in order. -/
def undefinedTargets (a : Automaton) : List Label :=
  let targets := (a.transitions.map (·.next)).filter fun l => !a.defines l
  (Table.ofList (targets.map fun l => (l, ()))).keys

def stateProblems (a : Automaton) (label : Label) (state : State) : List Problem :=
  let outside := fun s => !a.accepts s
  let matched := match state with
    | .constant _ => []
    | .variable table => table.keys
  let written := state.transitions.filterMap (·.write)
  (matched.filter outside).map (.matchesOutside label) ++
    (written.filter outside).map (.writesOutside label)

def problems (a : Automaton) : List Problem :=
  letterProblems [] a.alphabet ++
    (if a.defines a.initial then [] else [.undefinedInitial a.initial]) ++
    (match a.undefinedTargets with
      | [] => []
      | labels => [.undefinedTargets labels]) ++
    a.states.entries.flatMap fun (label, state) => a.stateProblems label state

/-- Accept an automaton without faults, or report its first fault. -/
def validate (a : Automaton) : Except Problem Unit :=
  match a.problems with
  | [] => .ok ()
  | problem :: _ => .error problem

end Automaton

end TapeLang
