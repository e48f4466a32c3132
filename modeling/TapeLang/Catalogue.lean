import TapeLang.Bundled

/-!
A catalogue of programs to choose from.

An empty catalogue is filled with the bundled programs by the first question about it; one that
holds anything is left as it is.  Putting in and taking out do not fill it.
-/

namespace TapeLang

structure Entry where
  name : String
  source : String
  automaton : Automaton

abbrev Catalogue := List Entry

namespace Catalogue

inductive Missing where
  | index (i : Nat)
  | name (wanted : String)
deriving DecidableEq

def Missing.message : Missing → String
  | .index i => "Model validation error: Program index " ++ toString i ++ " out of range"
  | .name wanted => "Model validation error: Program '" ++ wanted ++ "' not found"

def bundled : Catalogue :=
  Bundled.texts.filterMap fun (name, source) =>
    (Program.compileText source).toOption.map (⟨name, source, ·⟩)

def filled (c : Catalogue) : Catalogue := if c.isEmpty then bundled else c

def load : StateM Catalogue Unit := modify filled

def count : StateM Catalogue Nat := do
  load
  return (← get).length

def names : StateM Catalogue (List String) := do
  load
  return (← get).map (·.name)

def byIndex (i : Nat) : StateM Catalogue (Except Missing Entry) := do
  load
  match (← get)[i]? with
  | some entry => return .ok entry
  | none => return .error (.index i)

/-- Whether two names differ at most in the case of ASCII letters. -/
def sameName (a b : String) : Bool := a.toList.map Char.toLower = b.toList.map Char.toLower

def byName (name : String) : StateM Catalogue (Except Missing Entry) := do
  load
  match (← get).find? (fun entry => sameName entry.name name) with
  | some entry => return .ok entry
  | none => return .error (.name name)

structure Info where
  index : Nat
  name : String
  initial : Label
  alphabet : String
  stateCount : Nat
  transitionCount : Nat
deriving DecidableEq

def describe (index : Nat) (entry : Entry) : Info :=
  ⟨index, entry.name, entry.automaton.initial, String.ofList entry.automaton.alphabet,
    entry.automaton.states.entries.length, entry.automaton.transitionCount⟩

def info (i : Nat) : StateM Catalogue (Except Missing Info) := do
  return (← byIndex i).map (describe i)

def clear : StateM Catalogue Unit := set ([] : Catalogue)

def push (entry : Entry) : StateM Catalogue Unit := modify (· ++ [entry])

def remove (i : Nat) : StateM Catalogue (Option Entry) :=
  modifyGet fun entries => (entries[i]?, entries.eraseIdx i)

end Catalogue

end TapeLang
