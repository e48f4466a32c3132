import TapeLang.Automaton.Json
import TapeLang.Proofs.Json.Values
import TapeLang.Proofs.Validity

/-!
Automata that are written are read back.

A text that is written holds the value that was written (`Json.parse_pretty`), so what is left is
that every part of an automaton reads itself back from its value: symbols from their names,
transitions from the members that are not left out, states from their kind and the rest, and tables
from their entries.  Only the names of symbols are in question.  A letter names itself if an
alphabet may hold it, and the validator asks this of all symbols of an automaton.
-/

namespace TapeLang

/-- Items that are read back one by one are read back together. -/
theorem mapM_map_eq_some {α β : Type} {f : α → β} {g : β → Option α} {l : List α}
    (h : ∀ a ∈ l, g (f a) = some a) : (l.map f).mapM g = some l := by
  induction l with
  | nil => rfl
  | cons a l ih =>
    rw [List.forall_mem_cons] at h
    rw [List.map_cons, List.mapM_cons, h.1, ih h.2]
    rfl

theorem Table.ofList_entries {κ ν : Type} [LT κ] [DecidableEq κ] [KeyOrder κ] [DecidableLT κ]
    (t : Table κ ν) : Table.ofList t.entries = t := by
  have hkeys : (t.entries.map (·.1)).Nodup :=
    List.pairwise_map.mpr (t.sorted.imp KeyOrder.ne_of_lt)
  refine Table.ext fun k => ?_
  rw [Table.get?_ofList hkeys]
  rfl

namespace Json

theorem members?_object (members : List (String × Json)) :
    (object members).members? = some members :=
  mapM_map_eq_some fun _ _ => rfl

theorem writable_object {members : List (String × Json)} (h : ∀ m ∈ members, m.2.Writable) :
    (object members).Writable := by
  rw [object, Writable]
  induction members with
  | nil => trivial
  | cons m members ih =>
    rw [List.forall_mem_cons] at h
    exact ⟨h.1, ih h.2⟩

theorem loadable_object {members : List (String × Json)} {depth : Nat}
    (h : ∀ m ∈ members, m.2.loadable depth) : (object members).loadable (depth + 1) := by
  show (depth + 1 != 0 && loadableMembers depth _) = true
  rw [Bool.and_eq_true]
  refine ⟨by simp, ?_⟩
  induction members with
  | nil => rfl
  | cons m members ih =>
    rw [List.forall_mem_cons] at h
    show (true && m.2.loadable depth && loadableMembers depth _) = true
    rw [h.1, ih h.2]
    rfl

end Json

def Symbol.Named : Symbol → Prop
  | .letter c => isLetter c
  | .blank => True

theorem Symbol.ofText_text {s : Symbol} (h : s.Named) : ofText s.text = .ok s := by
  cases s with
  | blank => rfl
  | letter c =>
    have hne : String.singleton c ≠ blankWord := by
      intro heq
      have hlist := congrArg String.toList heq
      simp [blankWord] at hlist
    rw [ofText, text, if_neg hne, String.toList_singleton]
    exact if_pos h

theorem Symbol.named_of_ofText {name : String} {s : Symbol}
    (h : (ofText name).toOption = some s) : s.Named ∧ s.text = name := by
  unfold ofText at h
  split at h
  · next hblank =>
    cases h
    exact ⟨trivial, hblank.symm⟩
  · split at h
    · next c hc =>
      split at h
      · next hletter =>
        cases h
        rw [← String.ofList_toList (s := name), hc]
        exact ⟨hletter, rfl⟩
      · cases h
    · cases h

theorem Symbol.ofJson?_toJson {s : Symbol} (h : s.Named) : ofJson? s.toJson = some s := by
  show (ofText s.text).toOption = some s
  rw [ofText_text h]
  rfl

theorem Direction.ofJson?_toJson (origin : Json.Origin) (d : Direction) :
    ofJson? origin d.toJson = some d := by
  cases d <;> rfl

namespace Transition

/-- The object of a transition has the members that are not left out. -/
theorem fields?_members (t : Transition) :
    (Json.object t.members).fields? ["next", "write", "move"] =
      some [some (.text t.next), t.write.map Symbol.toJson, t.move.map Direction.toJson] := by
  obtain ⟨next, write, move⟩ := t
  cases write <;> cases move <;> rfl

theorem ofJson?_toJson {t : Transition} (h : ∀ s ∈ t.write, s.Named) (origin : Json.Origin) :
    ofJson? origin t.toJson = some t := by
  have hwrite : Json.optional? Symbol.ofJson? (t.write.map Symbol.toJson) = some t.write := by
    cases hw : t.write with
    | none => rfl
    | some s =>
      show (Symbol.ofJson? s.toJson).map some = _
      rw [Symbol.ofJson?_toJson (h s hw)]
      rfl
  have hmove : Json.optional? (Direction.ofJson? origin) (t.move.map Direction.toJson) =
      some t.move := by
    cases t.move with
    | none => rfl
    | some d =>
      show (Direction.ofJson? origin d.toJson).map some = _
      rw [Direction.ofJson?_toJson]
      rfl
  rw [ofJson?, toJson, fields?_members]
  dsimp only
  rw [hwrite, hmove]
  rfl

theorem exists_text_of_mem_members {t : Transition} {m : String × Json} (h : m ∈ t.members) :
    ∃ s, m.2 = .text s := by
  simp only [members, List.mem_append, List.mem_singleton, Option.mem_toList,
    Option.map_eq_some_iff] at h
  rcases h with (rfl | ⟨s, -, rfl⟩) | ⟨d, -, rfl⟩
  · exact ⟨t.next, rfl⟩
  · exact ⟨s.text, rfl⟩
  · exact ⟨d.text, rfl⟩

theorem writable_of_mem_members {t : Transition} : ∀ m ∈ t.members, m.2.Writable := by
  intro m hm
  obtain ⟨s, hs⟩ := exists_text_of_mem_members hm
  rw [hs]
  trivial

theorem loadable_of_mem_members {t : Transition} (depth : Nat) :
    ∀ m ∈ t.members, m.2.loadable depth := by
  intro m hm
  obtain ⟨s, hs⟩ := exists_text_of_mem_members hm
  rw [hs]
  rfl

end Transition

namespace State

structure Named (state : State) : Prop where
  matched : ∀ s ∈ state.matched, s.Named
  written : ∀ t ∈ state.transitions, ∀ s ∈ t.write, s.Named

theorem tableOfJson?_tableToJson {table : Table Symbol Transition}
    (h : (State.variable table).Named) : tableOfJson? (tableToJson table) = some table := by
  rw [tableOfJson?, tableToJson, Json.members?_object]
  show Option.bind (List.mapM _ (List.map _ table.entries)) _ = _
  rw [mapM_map_eq_some]
  · exact congrArg some table.ofList_entries
  · intro e he
    have hkey : e.1.Named := h.matched e.1 (List.mem_map_of_mem he)
    have hwritten : ∀ s ∈ e.2.write, s.Named := h.written e.2 (List.mem_map_of_mem he)
    show ((Symbol.ofText e.1.text).toOption.bind fun s =>
      (Transition.ofJson? .memory e.2.toJson).bind fun t => some (s, t)) = some e
    rw [Symbol.ofText_text hkey, Transition.ofJson?_toJson hwritten]
    rfl

theorem kindAndRest?_constant (t : Transition) :
    kindAndRest? (State.constant t).toJson = some (constantKind, t.toJson) := by
  obtain ⟨next, write, move⟩ := t
  cases write <;> cases move <;> rfl

theorem loadable_toJson (state : State) (depth : Nat) : state.toJson.loadable (depth + 3) := by
  match state with
  | .constant t =>
    refine Json.loadable_object (List.forall_mem_cons.mpr ⟨rfl, ?_⟩)
    exact Transition.loadable_of_mem_members (depth + 2)
  | .variable table =>
    refine Json.loadable_object (List.forall_mem_cons.mpr ⟨rfl, List.forall_mem_singleton.mpr ?_⟩)
    refine Json.loadable_object (List.forall_mem_map.mpr fun e _ => ?_)
    exact Json.loadable_object (Transition.loadable_of_mem_members depth)

theorem writable_toJson (state : State) : state.toJson.Writable := by
  match state with
  | .constant t =>
    refine Json.writable_object (List.forall_mem_cons.mpr ⟨trivial, ?_⟩)
    exact Transition.writable_of_mem_members
  | .variable table =>
    refine Json.writable_object
      (List.forall_mem_cons.mpr ⟨trivial, List.forall_mem_singleton.mpr ?_⟩)
    refine Json.writable_object (List.forall_mem_map.mpr fun e _ => ?_)
    exact Json.writable_object Transition.writable_of_mem_members

theorem ofJson?_toJson {state : State} (h : state.Named) (depth : Nat) :
    ofJson? (depth + 3) state.toJson = some state := by
  rw [ofJson?, if_pos (loadable_toJson state depth)]
  match state, h with
  | .constant t, h =>
    have ht : ∀ s ∈ t.write, s.Named := h.written t (List.mem_singleton.mpr rfl)
    rw [kindAndRest?_constant]
    show (Transition.ofJson? .memory t.toJson).bind _ = _
    rw [Transition.ofJson?_toJson ht]
    rfl
  | .variable table, h =>
    show (tableOfJson? (tableToJson table)).bind _ = _
    rw [tableOfJson?_tableToJson h]
    rfl

end State

theorem Json.writable_arr_text (items : List String) :
    (Json.arr (items.map .text)).Writable := by
  rw [Writable]
  induction items with
  | nil => trivial
  | cons s items ih => exact ⟨trivial, ih⟩

namespace Automaton

variable {a : Automaton}

theorem named_of_accepts (h : a.WellFormed) {s : Symbol} (hs : a.accepts s) : s.Named := by
  cases s with
  | blank => trivial
  | letter c =>
    rw [accepts, List.contains_iff_mem] at hs
    exact h.letters c hs

theorem named_of_wellFormed (h : a.WellFormed) {label : Label} {state : State}
    (hget : a.states.get? label = some state) : state.Named := by
  constructor
  · intro s hs
    exact named_of_accepts h (h.matched label state hget s hs)
  · intro t ht s hs
    exact named_of_accepts h (h.written t (mem_transitions.mpr ⟨label, state, hget, ht⟩) s hs)

theorem alphabetOfJson?_map (alphabet : List Char) :
    alphabetOfJson? (.arr (alphabet.map fun c => .text (String.singleton c))) = some alphabet := by
  refine mapM_map_eq_some fun c _ => ?_
  simp [Json.char?, Json.text, Json.text?]

theorem statesOfJson?_map (h : a.WellFormed) :
    statesOfJson? (.object (a.states.entries.map fun (l, s) => (l, s.toJson))) =
      some a.states := by
  rw [statesOfJson?, Json.members?_object]
  show Option.bind (List.mapM _ (List.map _ a.states.entries)) _ = _
  rw [mapM_map_eq_some]
  · exact congrArg some a.states.ofList_entries
  · intro e he
    have hnamed := named_of_wellFormed h (Table.mem_entries_iff.mp he)
    show ((State.ofJson? (122 + 3) e.2.toJson).bind fun s => some (e.1, s)) = some e
    rw [State.ofJson?_toJson hnamed]
    rfl

theorem ofJson?_toJson (h : a.WellFormed) : ofJson? a.toJson = some a := by
  show (alphabetOfJson? _).bind (fun alphabet => some a.initial >>= fun initial =>
    (statesOfJson? _).bind fun states => some (Automaton.mk alphabet initial states)) = some a
  rw [alphabetOfJson?_map, statesOfJson?_map h]
  rfl

theorem writable_toJson (a : Automaton) : a.toJson.Writable := by
  refine Json.writable_object (List.forall_mem_cons.mpr ⟨?_, List.forall_mem_cons.mpr
    ⟨trivial, List.forall_mem_singleton.mpr ?_⟩⟩)
  · have h := Json.writable_arr_text (a.alphabet.map String.singleton)
    rwa [List.map_map] at h
  · exact Json.writable_object (List.forall_mem_map.mpr fun e _ => e.2.writable_toJson)

theorem decode_eq_ok {text : String} (h : decode text = .ok a) : a.validate = .ok () := by
  rw [decode] at h
  split at h
  · cases h
  · split at h
    · next hvalid =>
      cases h
      exact hvalid
    · cases h

theorem decode_encode_of_validate (h : a.validate = .ok ()) : decode a.encode = .ok a := by
  have hparse : (Json.parse a.encode >>= ofJson?) = some a := by
    rw [encode, Json.parse_pretty a.writable_toJson]
    exact ofJson?_toJson (wellFormed_of_validate h)
  rw [decode, hparse]
  dsimp only
  rw [h]

/-- An automaton that the validator accepts is read back from the text that is written for it, and
so is every automaton that was read from some text, however that was spelled. -/
theorem decode_encode :
    (∀ a : Automaton, a.validate = .ok () → decode a.encode = .ok a) ∧
      ∀ (text : String) (a : Automaton), decode text = .ok a → decode a.encode = .ok a :=
  ⟨fun _ h => decode_encode_of_validate h,
    fun _ _ h => decode_encode_of_validate (decode_eq_ok h)⟩

/-- An automaton with labels that need escapes, are empty or name no state of a machine. -/
def oddlyNamed : Automaton where
  alphabet := ['z', '0']
  initial := "\"\\/\x01\x7f\n😀"
  states := .ofList
    [("\"\\/\x01\x7f\n😀", .variable (.ofList
        [(.blank, ⟨Label.reject, some (.letter 'z'), none⟩),
          (.letter '0', ⟨"", some .blank, some .left⟩)])),
      ("", .variable .empty),
      (Label.reject, .constant ⟨Label.accept, none, some .right⟩)]

/-- An automaton spelled as it is never written: records as lists, nulls, members in another order
and members that name no field. -/
def otherSpelling : String :=
  "[[\"a\"], \"\\u0061\", " ++
    "\x7b\"reject\": [\"constant\", \"accept\", null, \"left\"], " ++
    "\"a\": \x7b\"transitions\": " ++
    "\x7b\"blank\": \x7b\"kind\": [0], \"next\": \"reject\", \"write\": null\x7d\x7d, " ++
    "\"more\": 1e3, \"kind\": \"variable\"\x7d\x7d]"

theorem decode_encode_oddlyNamed :
    oddlyNamed.validate = .ok () ∧ decode oddlyNamed.encode = .ok oddlyNamed ∧
      ∃ a, decode otherSpelling = .ok a ∧ decode a.encode = .ok a := by
  have hvalid : oddlyNamed.validate = .ok () := by decide +kernel
  obtain ⟨a, ha⟩ : ∃ a, decode otherSpelling = .ok a := exists_eq_ok (by decide +kernel)
  exact ⟨hvalid, decode_encode.1 oddlyNamed hvalid, a, ha, decode_encode.2 otherSpelling a ha⟩

end Automaton

end TapeLang
