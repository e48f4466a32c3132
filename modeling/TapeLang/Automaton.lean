import TapeLang.Label
import TapeLang.Symbol

/-!
Compiled programs.

An automaton is a table of states by label.  It is plain data: nothing here says that its
labels are defined or its symbols declared (`Automaton.validate` does).
-/

namespace TapeLang

/-- One step: write under the head, move, enter the next state. -/
structure Transition where
  next : Label
  write : Option Symbol
  move : Option Direction
deriving DecidableEq

/-- A state takes one transition whatever it reads, or one for each symbol it knows. -/
inductive State where
  | constant (transition : Transition)
  | variable (table : Table Symbol Transition)
deriving DecidableEq

def State.transitions : State → List Transition
  | .constant t => [t]
  | .variable table => table.values

structure Automaton where
  alphabet : List Char
  initial : Label
  states : Table Label State
deriving DecidableEq

namespace Automaton

def accepts (a : Automaton) : Symbol → Bool
  | .blank => true
  | .letter c => a.alphabet.contains c

def transitions (a : Automaton) : List Transition := a.states.values.flatMap State.transitions

def transitionCount (a : Automaton) : Nat := a.transitions.length

end Automaton

end TapeLang
