import TapeLang.Diagnostic.Json
import TapeLang.Machine.Json
import TapeLang.Proofs.Encoding
import TapeLang.Proofs.Json.Integers

/-!
Reports that were read are read back.

What a machine and a compiler report is written and read as JSON without a check afterwards, so
not every value is read back: a symbol may have no name, and a number may be too large for its
field.  But a value that was read has passed the readers of its parts, however its text was
spelled.  So the argument is about one value at a time: each reader takes what is written for a
value that it gave before (`Json.rereads_of`).
-/

namespace TapeLang

namespace Json

/-- Whatever is read from a text is read again from what is written for it on one line. -/
def Rereads {α : Type} (toJson : α → Json) (ofJson? : Json → Option α) : Prop :=
  ∀ text a, (parse text >>= ofJson?) = some a → (parse (toJson a).compact >>= ofJson?) = some a

theorem rereads_of {α : Type} {toJson : α → Json} {ofJson? : Json → Option α}
    (hw : ∀ a, (toJson a).Writable)
    (h : ∀ {j a}, ofJson? j = some a → ofJson? (toJson a) = some a) : Rereads toJson ofJson? := by
  intro text a hread
  obtain ⟨j, -, hj⟩ := Option.bind_eq_some_iff.mp hread
  rw [parse_compact (hw a)]
  exact h hj

end Json

theorem Symbol.named_of_ofJson? {j : Json} {s : Symbol} (h : ofJson? j = some s) : s.Named := by
  obtain ⟨name, -, h⟩ := Option.bind_eq_some_iff.mp h
  exact (named_of_ofText h).1

theorem Symbol.writable_toJson (s : Symbol) : s.toJson.Writable := trivial

namespace Configuration

theorem writable_toJson (c : Configuration) : c.toJson.Writable := by
  refine Json.writable_object ?_
  simp only [List.forall_mem_cons]
  exact ⟨trivial, Json.writable_int c.head, c.symbol.writable_toJson, List.forall_mem_nil _⟩

theorem ofJson?_toJson {j : Json} {c : Configuration} (h : ofJson? j = some c) :
    ofJson? c.toJson = some c := by
  unfold ofJson? at h
  split at h
  · obtain ⟨label, -, h⟩ := Option.bind_eq_some_iff.mp h
    obtain ⟨head, hhead, h⟩ := Option.bind_eq_some_iff.mp h
    obtain ⟨symbol, hsymbol, h⟩ := Option.bind_eq_some_iff.mp h
    cases h
    show ((Json.text label).text?.bind fun label => (Json.int head).offset?.bind fun head =>
      (Symbol.ofJson? symbol.toJson).bind fun symbol =>
        some (Configuration.mk label head symbol)) = _
    rw [Json.offset?_int_of_offset? hhead,
      Symbol.ofJson?_toJson (Symbol.named_of_ofJson? hsymbol)]
    rfl
  · cases h

end Configuration

namespace Fault

theorem writable_toJson (f : Fault) : f.toJson.Writable := by
  cases f with
  | undefinedTransition state symbol =>
    refine Json.writable_object (List.forall_mem_singleton.mpr (Json.writable_object ?_))
    simp only [List.forall_mem_cons]
    exact ⟨trivial, symbol.writable_toJson, List.forall_mem_nil _⟩
  | invalidState label => exact Json.writable_object (List.forall_mem_singleton.mpr trivial)

theorem ofJson?_toJson {j : Json} {f : Fault} (h : ofJson? j = some f) :
    ofJson? f.toJson = some f := by
  unfold ofJson? at h
  split at h
  · split at h
    · obtain ⟨state, -, h⟩ := Option.bind_eq_some_iff.mp h
      obtain ⟨symbol, hsymbol, h⟩ := Option.bind_eq_some_iff.mp h
      cases h
      show ((Json.text state).text?.bind fun state =>
        (Symbol.ofJson? symbol.toJson).bind fun symbol =>
          some (Fault.undefinedTransition state symbol)) = _
      rw [Symbol.ofJson?_toJson (Symbol.named_of_ofJson? hsymbol)]
      rfl
    · cases h
  · obtain ⟨label, -, rfl⟩ := Option.map_eq_some_iff.mp h
    rfl
  · cases h

end Fault

namespace Outcome

theorem writable_toJson (o : Outcome) : o.toJson.Writable := by
  cases o with
  | accept => trivial
  | reject => trivial
  | timeout => trivial
  | fault f => exact Json.writable_object (List.forall_mem_singleton.mpr f.writable_toJson)

theorem ofJson?_toJson {j : Json} {o : Outcome} (h : ofJson? j = some o) :
    ofJson? o.toJson = some o := by
  cases o with
  | accept => rfl
  | reject => rfl
  | timeout => rfl
  | fault f =>
    have hf : Fault.ofJson? f.toJson = some f := by
      unfold ofJson? at h
      split at h
      · obtain ⟨f', hf, heq⟩ := Option.map_eq_some_iff.mp h
        cases heq
        exact Fault.ofJson?_toJson hf
      · -- Every other name is that of an outcome to which nothing belongs.
        split at h
        · split at h
          · cases h
          · split at h
            · cases h
            · split at h
              · cases h
              · cases h
        · cases h
      · cases h
    show (Fault.ofJson? f.toJson).map Outcome.fault = _
    rw [hf]
    rfl

end Outcome

namespace RunResult

theorem writable_toJson (r : RunResult) : r.toJson.Writable := by
  refine Json.writable_object ?_
  simp only [List.forall_mem_cons]
  exact ⟨r.outcome.writable_toJson, trivial, Json.writable_nat r.steps, List.forall_mem_nil _⟩

theorem ofJson?_toJson {j : Json} {r : RunResult} (h : ofJson? j = some r) :
    ofJson? r.toJson = some r := by
  unfold ofJson? at h
  split at h
  · obtain ⟨outcome, houtcome, h⟩ := Option.bind_eq_some_iff.mp h
    obtain ⟨window, -, h⟩ := Option.bind_eq_some_iff.mp h
    obtain ⟨steps, hsteps, h⟩ := Option.bind_eq_some_iff.mp h
    cases h
    show ((Outcome.ofJson? outcome.toJson).bind fun outcome => (Json.text window).text?.bind
      fun window => (Json.nat steps).word?.bind fun steps =>
        some (RunResult.mk outcome window steps)) = _
    rw [Outcome.ofJson?_toJson houtcome, Json.word?_nat (Json.word?_eq_some hsteps)]
    rfl
  · cases h

end RunResult

/-! ## What a compiler reports -/

namespace Span

theorem writable_of_mem_members (s : Span) : ∀ m ∈ s.members, m.2.Writable := by
  simp only [members, List.forall_mem_cons]
  exact ⟨Json.writable_nat _, Json.writable_nat _, Json.writable_nat _, Json.writable_nat _,
    List.forall_mem_nil _⟩

/-- The numbers of a region that was read fit 64 bits. -/
theorem lt_of_ofJson? {j : Json} {s : Span} (h : ofJson? j = some s) :
    s.startLine < 0x10000000000000000 ∧ s.endLine < 0x10000000000000000 ∧
      s.startColumn < 0x10000000000000000 ∧ s.endColumn < 0x10000000000000000 := by
  unfold ofJson? at h
  split at h
  · obtain ⟨startLine, h₁, h⟩ := Option.bind_eq_some_iff.mp h
    obtain ⟨endLine, h₂, h⟩ := Option.bind_eq_some_iff.mp h
    obtain ⟨startColumn, h₃, h⟩ := Option.bind_eq_some_iff.mp h
    obtain ⟨endColumn, h₄, h⟩ := Option.bind_eq_some_iff.mp h
    cases h
    exact ⟨Json.word?_eq_some h₁, Json.word?_eq_some h₂, Json.word?_eq_some h₃,
      Json.word?_eq_some h₄⟩
  · cases h

/-- They are read back, wherever they stand among the members of an object. -/
theorem ofJson?_of_fields {j j' : Json} {s : Span} (h : ofJson? j = some s)
    (hfields : j'.fields? fieldNames = some (s.members.map fun m => some m.2)) :
    ofJson? j' = some s := by
  obtain ⟨h₁, h₂, h₃, h₄⟩ := lt_of_ofJson? h
  rw [ofJson?, hfields]
  show ((Json.nat s.startLine).word?.bind fun a => (Json.nat s.endLine).word?.bind fun b =>
    (Json.nat s.startColumn).word?.bind fun c => (Json.nat s.endColumn).word?.bind fun d =>
      some (Span.mk a b c d)) = _
  rw [Json.word?_nat h₁, Json.word?_nat h₂, Json.word?_nat h₃, Json.word?_nat h₄]
  rfl

theorem writable_toJson (s : Span) : s.toJson.Writable :=
  Json.writable_object s.writable_of_mem_members

theorem ofJson?_toJson {j : Json} {s : Span} (h : ofJson? j = some s) :
    ofJson? s.toJson = some s :=
  ofJson?_of_fields h rfl

theorem loadable_of_mem_members {j : Json} {s : Span} (h : ofJson? j = some s) (depth : Nat) :
    ∀ m ∈ s.members, m.2.loadable depth := by
  obtain ⟨h₁, h₂, h₃, h₄⟩ := lt_of_ofJson? h
  simp only [members, List.forall_mem_cons]
  exact ⟨Json.loadable_nat h₁ depth, Json.loadable_nat h₂ depth, Json.loadable_nat h₃ depth,
    Json.loadable_nat h₄ depth, List.forall_mem_nil _⟩

end Span

namespace Diagnostic

theorem Kind.ofJson?_toJson (k : Kind) : Kind.ofJson? k.toJson = some k := by
  cases k <;> rfl

theorem writable_toJson (d : Diagnostic) : d.toJson.Writable := by
  refine Json.writable_object (List.forall_mem_append.mpr ⟨?_, d.span.writable_of_mem_members⟩)
  simp only [List.forall_mem_cons]
  exact ⟨trivial, trivial, List.forall_mem_nil _⟩

theorem span_of_ofJson? {j : Json} {d : Diagnostic} (h : ofJson? j = some d) :
    Span.ofJson? j = some d.span := by
  unfold ofJson? at h
  split at h
  · split at h
    · obtain ⟨fields, -, h⟩ := Option.bind_eq_some_iff.mp h
      split at h
      · obtain ⟨kind, -, h⟩ := Option.bind_eq_some_iff.mp h
        obtain ⟨message, -, h⟩ := Option.bind_eq_some_iff.mp h
        obtain ⟨span, hspan, h⟩ := Option.bind_eq_some_iff.mp h
        cases h
        exact hspan
      · cases h
    · cases h
  · cases h

theorem ofJson?_toJson {j : Json} {d : Diagnostic} (h : ofJson? j = some d) :
    ofJson? d.toJson = some d := by
  have hspan : Span.ofJson? d.toJson = some d.span := Span.ofJson?_of_fields (span_of_ofJson? h) rfl
  have hload : d.toJson.loadable Json.depthLimit := by
    refine Json.loadable_object (List.forall_mem_append.mpr
      ⟨?_, Span.loadable_of_mem_members (span_of_ofJson? h) _⟩)
    simp only [List.forall_mem_cons]
    exact ⟨rfl, rfl, List.forall_mem_nil _⟩
  show (if d.toJson.loadable Json.depthLimit then
    (Kind.ofJson? d.kind.toJson).bind fun kind => (Json.text d.message).text?.bind fun message =>
      (Span.ofJson? d.toJson).bind fun span => some (Diagnostic.mk kind message span)
    else none) = _
  rw [if_pos hload, hspan, Kind.ofJson?_toJson]
  rfl

end Diagnostic

namespace Json

/-- Everything that a machine or a compiler reports is read again from what is written for it, once
it was read from some text, however that was spelled. -/
theorem reports_reread :
    Rereads Configuration.toJson Configuration.ofJson? ∧
      Rereads Fault.toJson Fault.ofJson? ∧
      Rereads Outcome.toJson Outcome.ofJson? ∧
      Rereads RunResult.toJson RunResult.ofJson? ∧
      Rereads Span.toJson Span.ofJson? ∧
      Rereads Diagnostic.toJson Diagnostic.ofJson? :=
  ⟨rereads_of Configuration.writable_toJson Configuration.ofJson?_toJson,
    rereads_of Fault.writable_toJson Fault.ofJson?_toJson,
    rereads_of Outcome.writable_toJson Outcome.ofJson?_toJson,
    rereads_of RunResult.writable_toJson RunResult.ofJson?_toJson,
    rereads_of Span.writable_toJson Span.ofJson?_toJson,
    rereads_of Diagnostic.writable_toJson Diagnostic.ofJson?_toJson⟩

/-- The result of a run as it is never written: the members in another order, one of them with a
name that says nothing, a record as a list, and the largest number of steps. -/
def oddResult : String :=
  "\x7b\"stepCount\": 18446744073709551615, \"kind\": [1e3, \x7b\x7d], " ++
    "\"outcome\": \x7b\"fault\": " ++
    "\x7b\"UndefinedTransition\": [\"\\ud83d\\ude00\", \"blank\"]\x7d\x7d, " ++
    "\"finalTapeWindow\": \"\\u0000\"\x7d"

/-- A diagnostic as it is never written: its kind comes last, as an object. -/
def oddDiagnostic : String :=
  "\x7b\"endColumn\": 0, \"startColumn\": 18446744073709551615, \"more\": null, " ++
    "\"endLine\": 2, \"startLine\": 1, \"message\": \"\\/\", " ++
    "\"kind\": \x7b\"LexError\": null\x7d\x7d"

theorem reports_reread_odd :
    (∃ r, (parse oddResult >>= RunResult.ofJson?) = some r ∧
        (parse r.toJson.compact >>= RunResult.ofJson?) = some r) ∧
      ∃ d, (parse oddDiagnostic >>= Diagnostic.ofJson?) = some d ∧
        (parse d.toJson.compact >>= Diagnostic.ofJson?) = some d := by
  have hresult : (parse oddResult >>= RunResult.ofJson?) =
      some ⟨.fault (.undefinedTransition "😀" .blank), "\x00", 18446744073709551615⟩ := by
    decide +kernel
  have hdiagnostic : (parse oddDiagnostic >>= Diagnostic.ofJson?) =
      some ⟨.lexical, "/", ⟨1, 2, 18446744073709551615, 0⟩⟩ := by
    decide +kernel
  exact ⟨⟨_, hresult, reports_reread.2.2.2.1 _ _ hresult⟩, _, hdiagnostic,
    reports_reread.2.2.2.2.2 _ _ hdiagnostic⟩

end Json

end TapeLang
