import TapeLang.Automaton.Validate
import TapeLang.Json.Parser
import TapeLang.Json.Record
import TapeLang.Json.Render

/-!
Automata as JSON.

`Automaton.encode` writes an automaton, `Automaton.decode` reads one back and checks it.  What
is read may be spelled in more ways than what is written.  A state is held in memory before it
is looked at, since the member that tells its kind may come last; so everything in it has to be
loadable, while elsewhere a member that names no field is passed over unread.
-/

namespace TapeLang

open Json (Origin)

/-- How deep containers may be nested in a text that is held in memory. -/
def Json.depthLimit : Nat := 127

namespace Symbol

def toJson (s : Symbol) : Json := .text s.text

def ofJson? (j : Json) : Option Symbol := do
  (ofText (← j.text?)).toOption

end Symbol

namespace Direction

def toJson (d : Direction) : Json := .text d.text

def ofJson? (origin : Origin) (j : Json) : Option Direction := do
  let name ← j.name? origin
  if name = left.text then some .left
  else if name = right.text then some .right
  else none

end Direction

namespace Transition

/-- Parts that are missing are left out. -/
def members (t : Transition) : List (String × Json) :=
  [("next", .text t.next)] ++
    (t.write.map fun s => ("write", s.toJson)).toList ++
    (t.move.map fun d => ("move", d.toJson)).toList

def toJson (t : Transition) : Json := .object t.members

def ofJson? (origin : Origin) (j : Json) : Option Transition :=
  match j.fields? ["next", "write", "move"] with
  | some [some next, write, move] => do
    return ⟨← next.text?, ← Json.optional? Symbol.ofJson? write,
      ← Json.optional? (Direction.ofJson? origin) move⟩
  | _ => none

end Transition

namespace State

def constantKind : String := "constant"

def variableKind : String := "variable"

def tableToJson (table : Table Symbol Transition) : Json :=
  .object (table.entries.map fun (s, t) => (s.text, t.toJson))

def toJson : State → Json
  | .constant t => .object (("kind", .text constantKind) :: t.members)
  | .variable table =>
    .object [("kind", .text variableKind), ("transitions", tableToJson table)]

def tableOfJson? (j : Json) : Option (Table Symbol Transition) := do
  let entries ← (← j.members?).mapM fun (k, v) => do
    return (← (Symbol.ofText k).toOption, ← Transition.ofJson? .memory v)
  return .ofList entries

/-- The kind of a state and the rest of it: the members other than the kind, or the items
after it. -/
def kindAndRest? : Json → Option (String × Json)
  | .obj members =>
    match Json.given "kind" members with
    | [.str (some kind)] => some (kind, .obj (members.filter (·.1 ≠ some "kind")))
    | _ => none
  | .arr (.str (some kind) :: items) => some (kind, .arr items)
  | _ => none

def ofJson? (depth : Nat) (j : Json) : Option State := do
  if j.loadable depth then
    let (kind, rest) ← kindAndRest? j
    if kind = constantKind then
      return .constant (← Transition.ofJson? .memory rest)
    else if kind = variableKind then
      match rest.fields? ["transitions"] with
      | some [some table] => return .variable (← tableOfJson? table)
      | _ => none
    else none
  else none

end State

namespace Automaton

def toJson (a : Automaton) : Json :=
  .object
    [("alphabet", .arr (a.alphabet.map fun c => .text (String.singleton c))),
      ("initialState", .text a.initial),
      ("states", .object (a.states.entries.map fun (l, s) => (l, s.toJson)))]

def alphabetOfJson? : Json → Option (List Char)
  | .arr items => items.mapM Json.char?
  | _ => none

/-- The states stand in two containers, so that much less depth is left for each of them. -/
def statesOfJson? (j : Json) : Option (Table Label State) := do
  let entries ← (← j.members?).mapM fun (label, v) => do
    return (label, ← State.ofJson? (Json.depthLimit - 2) v)
  return .ofList entries

def ofJson? (j : Json) : Option Automaton :=
  match j.fields? ["alphabet", "initialState", "states"] with
  | some [some alphabet, some initial, some states] => do
    return ⟨← alphabetOfJson? alphabet, ← initial.text?, ← statesOfJson? states⟩
  | _ => none

def encode (a : Automaton) : String := a.toJson.pretty

inductive DecodeError where
  | notAnAutomaton
  | invalid (problem : Problem)

def decode (text : String) : Except DecodeError Automaton :=
  match Json.parse text >>= ofJson? with
  | none => .error .notAnAutomaton
  | some a =>
    match a.validate with
    | .ok () => .ok a
    | .error problem => .error (.invalid problem)

end Automaton

end TapeLang
