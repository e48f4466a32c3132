import TapeLang.Automaton.Json
import TapeLang.Problem

/-!
Regions and diagnostics as JSON.

The region of a diagnostic is not a member of its own: its four numbers stand among the members
of the diagnostic.  For that reason a diagnostic is always an object, and what it does not know
is held in memory before it is passed over.
-/

namespace TapeLang

namespace Span

def fieldNames : List String := ["startLine", "endLine", "startColumn", "endColumn"]

def members (s : Span) : List (String × Json) :=
  [("startLine", .nat s.startLine), ("endLine", .nat s.endLine),
    ("startColumn", .nat s.startColumn), ("endColumn", .nat s.endColumn)]

def toJson (s : Span) : Json := .object s.members

def ofJson? (j : Json) : Option Span :=
  match j.fields? fieldNames with
  | some [some startLine, some endLine, some startColumn, some endColumn] => do
    return ⟨← startLine.word?, ← endLine.word?, ← startColumn.word?, ← endColumn.word?⟩
  | _ => none

end Span

namespace Diagnostic

def Kind.toJson (k : Kind) : Json := .text k.text

def Kind.ofJson? (j : Json) : Option Kind := do
  let name ← j.name? .text
  if name = Kind.lexical.text then some .lexical
  else if name = Kind.syntactic.text then some .syntactic
  else if name = Kind.semantic.text then some .semantic
  else none

def toJson (d : Diagnostic) : Json :=
  .object ([("kind", d.kind.toJson), ("message", .text d.message)] ++ d.span.members)

def ofJson? (j : Json) : Option Diagnostic := do
  match j with
  | .obj members =>
    if j.loadable Json.depthLimit then
      match ← ["kind", "message"].mapM (Json.field? members) with
      | [some kind, some message] =>
        return ⟨← Kind.ofJson? kind, ← message.text?, ← Span.ofJson? j⟩
      | _ => none
    else none
  | _ => none

end Diagnostic

end TapeLang
