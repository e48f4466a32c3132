import TapeLang.Automaton.Json
import TapeLang.Machine

/-!
What a machine reports, as JSON.
-/

namespace TapeLang

namespace Configuration

def toJson (c : Configuration) : Json :=
  .object [("label", .text c.label), ("head", .int c.head), ("symbol", c.symbol.toJson)]

def ofJson? (j : Json) : Option Configuration :=
  match j.fields? ["label", "head", "symbol"] with
  | some [some label, some head, some symbol] => do
    return ⟨← label.text?, ← head.offset?, ← Symbol.ofJson? symbol⟩
  | _ => none

end Configuration

namespace Fault

def toJson : Fault → Json
  | .undefinedTransition state symbol =>
    .object [("UndefinedTransition",
      .object [("state", .text state), ("symbol", symbol.toJson)])]
  | .invalidState label => .object [("InvalidState", .text label)]

def ofJson? (j : Json) : Option Fault :=
  match j.choice? with
  | some ("UndefinedTransition", some payload) =>
    match payload.fields? ["state", "symbol"] with
    | some [some state, some symbol] => do
      return .undefinedTransition (← state.text?) (← Symbol.ofJson? symbol)
    | _ => none
  | some ("InvalidState", some payload) => payload.text?.map .invalidState
  | _ => none

end Fault

namespace Outcome

def toJson : Outcome → Json
  | .accept => .text "accept"
  | .reject => .text "reject"
  | .timeout => .text "timeout"
  | .fault f => .object [("fault", f.toJson)]

def ofJson? (j : Json) : Option Outcome :=
  match j.choice? with
  | some ("fault", some payload) => (Fault.ofJson? payload).map .fault
  | some (name, payload) =>
    if Json.isNothing .text payload then
      if name = "accept" then some .accept
      else if name = "reject" then some .reject
      else if name = "timeout" then some .timeout
      else none
    else none
  | none => none

end Outcome

namespace RunResult

def toJson (r : RunResult) : Json :=
  .object [("outcome", r.outcome.toJson), ("finalTapeWindow", .text r.window),
    ("stepCount", .nat r.steps)]

def ofJson? (j : Json) : Option RunResult :=
  match j.fields? ["outcome", "finalTapeWindow", "stepCount"] with
  | some [some outcome, some window, some steps] => do
    return ⟨← Outcome.ofJson? outcome, ← window.text?, ← steps.word?⟩
  | _ => none

end RunResult

end TapeLang
