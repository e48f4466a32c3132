import Mathlib.Logic.Relation
import TapeLang.Proofs.Encoding
import TapeLang.Proofs.Json.Edits

/-!
Two spellings of an automaton are read alike.

A text of an automaton may be edited in any of its objects: the automaton, a state and a transition
are records, and the states and the transitions of a state are tables.  Which members of a state
are known depends on its kind, and the kind may stand anywhere among them.  One edit does not change
what is read (`Automaton.ofJson?_of_edit`), so no sequence of edits does.
-/

namespace TapeLang

open Json (RecordEdit FieldEdit TableEdit)

theorem bind_eq_of_rel {α β : Type} {R : α → α → Prop} {f : α → Option β} {x y : Option α}
    (h : Option.Rel R x y) (hf : ∀ a b, x = some a → R a b → f a = f b) : x.bind f = y.bind f := by
  cases h with
  | none => rfl
  | some hab => exact hf _ _ rfl hab

namespace Transition

def fieldNames : List String := ["next", "write", "move"]

def Edit : Json → Json → Prop := RecordEdit fieldNames

theorem ofJson?_of_recordEdit {known : List String} {j j' : Json} (h : RecordEdit known j j')
    (hknown : fieldNames ⊆ known) (origin : Json.Origin) :
    ofJson? origin j = ofJson? origin j' := by
  have hfields : j.fields? ["next", "write", "move"] = j'.fields? ["next", "write", "move"] :=
    h.fields?_eq hknown
  rw [ofJson?, ofJson?, hfields]

theorem ofJson?_of_edit {j j' : Json} (h : Edit j j') (origin : Json.Origin) :
    ofJson? origin j = ofJson? origin j' :=
  ofJson?_of_recordEdit h (List.Subset.refl _) origin

/-- The label that a transition leads to is a text. -/
theorem ofJson?_arr {v : Json} (hv : v.text? = none) (origin : Json.Origin) (items : List Json) :
    ofJson? origin (.arr (v :: items)) = none := by
  rw [ofJson?]
  split
  · next next write move heq =>
    rw [Json.fields?] at heq
    split at heq
    · have hnext : some v = some next := (List.cons.inj (Option.some.inj heq)).1
      cases hnext
      show v.text?.bind _ = none
      rw [hv]
      rfl
    · cases heq
  · rfl

/-- The transitions of a state are no part of a transition. -/
theorem ofJson?_of_fieldEdit {Edit : Json → Json → Prop} {j j' : Json}
    (h : FieldEdit "transitions" 0 (TableEdit Edit) j j') (origin : Json.Origin) :
    ofJson? origin j = ofJson? origin j' := by
  cases h with
  | @member front back v v' h =>
    rw [ofJson?, ofJson?, Json.fields?, Json.fields?, FieldEdit.all_isSome front back _ v v',
      FieldEdit.mapM_field? (by decide) front back v v']
  | @item front hfront back v v' h =>
    obtain rfl := List.length_eq_zero_iff.mp hfront
    have htext : v.text? = none ∧ v'.text? = none := by
      cases h with
      | permute => exact ⟨rfl, rfl⟩
      | value => exact ⟨rfl, rfl⟩
    rw [List.nil_append, List.nil_append, ofJson?_arr htext.1, ofJson?_arr htext.2]

end Transition

/-! ## States -/

namespace State

def fieldNames (kind : String) : List String :=
  if kind = constantKind then Transition.fieldNames
  else if kind = variableKind then ["transitions"]
  else []

/-- The names that mean something in a state.  A state without a kind is refused for that. -/
def known (j : Json) : List String :=
  match kindAndRest? j with
  | some (kind, _) => "kind" :: fieldNames kind
  | none => ["kind"]

theorem kind_mem_known (j : Json) : "kind" ∈ known j := by
  unfold known
  split
  · exact List.mem_cons_self
  · exact List.mem_cons_self

theorem fieldNames_subset_known {j rest : Json} {kind : String}
    (h : kindAndRest? j = some (kind, rest)) : fieldNames kind ⊆ known j := by
  rw [known, h]
  exact List.subset_cons_self _ _

/-- An edit of a state: of the state itself, or of its transitions. -/
inductive Edit : Json → Json → Prop
  | record {j j' : Json} (h : RecordEdit (known j) j j') : Edit j j'
  | transitions {j j' : Json} (h : FieldEdit "transitions" 1 (TableEdit Transition.Edit) j j') :
    Edit j j'

theorem kindAndRest?_obj (members : Json.Members) :
    kindAndRest? (.obj members) =
      ((Json.field? members "kind").join.bind Json.text?).map fun kind =>
        (kind, .obj (members.filter (·.1 ≠ some "kind"))) := by
  rw [kindAndRest?, Json.field?]
  cases Json.given "kind" members with
  | nil => rfl
  | cons v values =>
    cases v with
    | str s => cases s <;> cases values <;> rfl
    | _ => cases values <;> rfl

variable {j j' : Json}

theorem kindAndRest?_of_recordEdit {known : List String} (h : RecordEdit known j j')
    (hkind : "kind" ∈ known) :
    Option.Rel (fun p p' => p.1 = p'.1 ∧ RecordEdit known p.2 p'.2)
      (kindAndRest? j) (kindAndRest? j') := by
  obtain ⟨members, members', rfl, rfl, -⟩ := h.exists_members
  rw [kindAndRest?_obj, kindAndRest?_obj, Json.field?_of_perm (h.given_perm hkind)]
  cases (Json.field? members' "kind").join.bind Json.text? with
  | none => exact .none
  | some kind => exact .some ⟨rfl, h.others hkind⟩

theorem kindAndRest?_of_fieldEdit {Edit : Json → Json → Prop}
    (h : FieldEdit "transitions" 1 Edit j j') :
    Option.Rel (fun p p' => p.1 = p'.1 ∧ FieldEdit "transitions" 0 Edit p.2 p'.2)
      (kindAndRest? j) (kindAndRest? j') := by
  cases h with
  | @member front back v v' h =>
    rw [kindAndRest?_obj, kindAndRest?_obj, FieldEdit.field?_of_ne (by decide) front back v v',
      List.filter_append, List.filter_append, List.filter_cons_of_pos (by simp),
      List.filter_cons_of_pos (by simp)]
    cases (Json.field? (front ++ (some "transitions", v') :: back) "kind").join.bind
      Json.text? with
    | none => exact .none
    | some kind => exact .some ⟨rfl, .member _ _ h⟩
  | @item front hfront back v v' h =>
    obtain ⟨first, rfl⟩ := List.length_eq_one_iff.mp hfront
    cases first with
    | str s =>
      cases s with
      | none => exact .none
      | some kind => exact .some ⟨rfl, .item (rfl : ([] : List Json).length = 0) back h⟩
    | _ => exact .none

def ofRest? (kind : String) (rest : Json) : Option State := do
  if kind = constantKind then
    return .constant (← Transition.ofJson? .memory rest)
  else if kind = variableKind then
    match rest.fields? ["transitions"] with
    | some [some table] => return .variable (← tableOfJson? table)
    | _ => none
  else none

theorem ofJson?_eq (depth : Nat) (j : Json) :
    ofJson? depth j =
      if j.loadable depth then (kindAndRest? j).bind fun p => ofRest? p.1 p.2 else none := rfl

theorem ofRest?_of_recordEdit {kind : String} {known : List String} (h : RecordEdit known j j')
    (hknown : fieldNames kind ⊆ known) : ofRest? kind j = ofRest? kind j' := by
  rw [ofRest?, ofRest?]
  unfold fieldNames at hknown
  split
  · next hkind =>
    rw [if_pos hkind] at hknown
    rw [Transition.ofJson?_of_recordEdit h hknown]
  · next hkind =>
    rw [if_neg hkind] at hknown
    split
    · next hkind =>
      rw [if_pos hkind] at hknown
      rw [h.fields?_eq hknown]
    · rfl

theorem tableOfJson?_eq (j : Json) :
    tableOfJson? j = Json.readTable? (fun name => (Symbol.ofText name).toOption)
      (Transition.ofJson? .memory) j := rfl

theorem tableOfJson?_of_edit (h : TableEdit Transition.Edit j j') :
    tableOfJson? j = tableOfJson? j' := by
  have hkey : ∀ {name name' : String} {s : Symbol}, (Symbol.ofText name).toOption = some s →
      (Symbol.ofText name').toOption = some s → name = name' := fun hs hs' =>
    (Symbol.named_of_ofText hs).2.symm.trans (Symbol.named_of_ofText hs').2
  rw [tableOfJson?_eq, tableOfJson?_eq]
  exact h.readTable?_eq hkey fun hedit => Transition.ofJson?_of_edit hedit .memory

theorem ofRest?_of_fieldEdit (kind : String)
    (h : FieldEdit "transitions" 0 (TableEdit Transition.Edit) j j') :
    ofRest? kind j = ofRest? kind j' := by
  have htransition := Transition.ofJson?_of_fieldEdit h
  rw [ofRest?, ofRest?, htransition]
  split
  · rfl
  · split
    · rcases h.fields? [] [] nofun nofun with ⟨hj, hj'⟩ |
        ⟨front, back, v, v', hfront, hedit, hj, hj'⟩
      · rw [List.nil_append] at hj hj'
        rw [hj, hj']
      · obtain rfl := List.length_eq_zero_iff.mp hfront
        rw [List.nil_append] at hj hj'
        rw [hj, hj']
        cases back with
        | nil =>
          show (tableOfJson? v).bind _ = (tableOfJson? v').bind _
          rw [tableOfJson?_of_edit hedit]
        | cons _ _ => rfl
    · rfl

theorem Edit.loadable_eq (h : Edit j j') (depth : Nat) : j.loadable depth = j'.loadable depth := by
  cases h with
  | record h => exact h.loadable_eq depth
  | transitions h =>
    exact h.loadable_eq (fun htable => htable.loadable_eq RecordEdit.loadable_eq) depth

theorem ofJson?_of_edit (h : Edit j j') (depth : Nat) : ofJson? depth j = ofJson? depth j' := by
  rw [ofJson?_eq, ofJson?_eq, h.loadable_eq]
  have hrest : ((kindAndRest? j).bind fun p => ofRest? p.1 p.2) =
      (kindAndRest? j').bind fun p => ofRest? p.1 p.2 := by
    cases h with
    | record h =>
      refine bind_eq_of_rel (kindAndRest?_of_recordEdit h (kind_mem_known j)) ?_
      rintro ⟨kind, rest⟩ ⟨_, rest'⟩ hkind ⟨rfl, hedit⟩
      exact ofRest?_of_recordEdit hedit (fieldNames_subset_known hkind)
    | transitions h =>
      refine bind_eq_of_rel (kindAndRest?_of_fieldEdit h) ?_
      rintro ⟨kind, rest⟩ ⟨_, rest'⟩ - ⟨rfl, hedit⟩
      exact ofRest?_of_fieldEdit kind hedit
  rw [hrest]

end State

/-! ## Automata -/

namespace Automaton

def fieldNames : List String := ["alphabet", "initialState", "states"]

/-- An edit of an automaton: of the automaton itself, or of its states. -/
inductive Edit : Json → Json → Prop
  | record {j j' : Json} (h : RecordEdit fieldNames j j') : Edit j j'
  | states {j j' : Json} (h : FieldEdit "states" 2 (TableEdit State.Edit) j j') : Edit j j'

variable {j j' : Json}

theorem statesOfJson?_eq (j : Json) :
    statesOfJson? j = Json.readTable? some (State.ofJson? (Json.depthLimit - 2)) j := rfl

theorem statesOfJson?_of_edit (h : TableEdit State.Edit j j') :
    statesOfJson? j = statesOfJson? j' := by
  have hkey : ∀ {label label' l : Label}, some label = some l → some label' = some l →
      label = label' := fun hl hl' => Option.some.inj (hl.trans hl'.symm)
  rw [statesOfJson?_eq, statesOfJson?_eq]
  exact h.readTable?_eq hkey fun hedit => State.ofJson?_of_edit hedit _

/-- An automaton is read alike after an edit. -/
theorem ofJson?_of_edit (h : Edit j j') : ofJson? j = ofJson? j' := by
  rw [ofJson?, ofJson?]
  cases h with
  | record h =>
    have hfields : j.fields? ["alphabet", "initialState", "states"] =
        j'.fields? ["alphabet", "initialState", "states"] := h.fields?_eq (List.Subset.refl _)
    rw [hfields]
  | states h =>
    rcases h.fields? ["alphabet", "initialState"] [] (by decide) nofun with ⟨hj, hj'⟩ |
      ⟨front, back, v, v', hfront, hedit, hj, hj'⟩
    · rw [List.cons_append, List.cons_append, List.nil_append] at hj hj'
      rw [hj, hj']
    · obtain ⟨alphabet, initial, rfl⟩ := List.length_eq_two.mp hfront
      rw [List.cons_append, List.cons_append, List.nil_append] at hj hj'
      rw [hj, hj']
      cases alphabet with
      | none => rfl
      | some alphabet =>
        cases initial with
        | none => rfl
        | some initial =>
          cases back with
          | nil =>
            show ((alphabetOfJson? alphabet).bind fun a => initial.text?.bind fun i =>
              (statesOfJson? v).bind fun s => some (Automaton.mk a i s)) = _
            rw [statesOfJson?_of_edit hedit]
            rfl
          | cons _ _ => rfl

theorem ofJson?_of_edits (h : Relation.ReflTransGen Edit j j') : ofJson? j = ofJson? j' := by
  induction h with
  | refl => rfl
  | tail _ hedit ih => exact ih.trans (ofJson?_of_edit hedit)

/-- Texts that differ by edits are decoded alike: to one automaton, to one finding of the validator,
or not at all. -/
theorem decode_of_edits {text text' : String} (h : Json.parse text = some j)
    (h' : Json.parse text' = some j') (hedits : Relation.ReflTransGen Edit j j') :
    decode text = decode text' := by
  have hread : (Json.parse text >>= ofJson?) = (Json.parse text' >>= ofJson?) := by
    rw [h, h']
    exact ofJson?_of_edits hedits
  rw [decode, decode, hread]

def plainSpelling : Json :=
  .object
    [("alphabet", .arr [.text "a"]),
      ("initialState", .text "m"),
      ("states", .object
        [("m", .object
            [("kind", .text State.variableKind),
              ("transitions", .object
                [("a", .object [("next", .text "n")]),
                  ("blank", .object [("next", .text Label.accept)])])]),
          ("n", .object [("kind", .text State.constantKind), ("next", .text Label.reject)])])]

/-- Another one: all objects are in reverse, the automaton and a transition have a kind, and a
transition and a state of one transition have transitions. -/
def oddSpelling : Json :=
  .object
    [("states", .object
        [("n", .object
            [("next", .text Label.reject), ("transitions", .int (-1)),
              ("kind", .text State.constantKind)]),
          ("m", .object
            [("transitions", .object
                [("blank", .object [("next", .text Label.accept)]),
                  ("a", .object
                    [("kind", .bool false), ("transitions", .null), ("next", .text "n")])]),
              ("kind", .text State.variableKind)])]),
      ("kind", .text ""),
      ("initialState", .text "m"),
      ("alphabet", .arr [.text "a"])]

theorem edits_oddSpelling : Relation.ReflTransGen Edit plainSpelling oddSpelling := by
  refine .head (.states (.member [_, _] [] (.value [] [_] (some "m") (.transitions (.member [_] []
    (.value [] [_] (some "a") (.insert [] _ "transitions" (by decide) .null))))))) ?_
  refine .head (.states (.member [_, _] [] (.value [] [_] (some "m") (.transitions (.member [_] []
    (.value [] [_] (some "a") (.insert [] _ "kind" (by decide) (.bool false)))))))) ?_
  refine .head (.states (.member [_, _] [] (.value [] [_] (some "m") (.transitions (.member [_] []
    (.permute (by decide) (.swap ..))))))) ?_
  refine .head (.states (.member [_, _] [] (.value [] [_] (some "m") (.record
    (.permute (.swap ..)))))) ?_
  refine .head (.states (.member [_, _] [] (.value [_] [] (some "n") (.record
    (.insert [_] [_] "transitions" (by decide) (.num (n := ⟨true, 1, none, none⟩)
      ⟨by decide, rfl, rfl⟩)))))) ?_
  refine .head (.states (.member [_, _] [] (.value [_] [] (some "n") (.record
    (.permute (List.reverse_perm _).symm))))) ?_
  refine .head (.states (.member [_, _] [] (.permute (by decide) (.swap ..)))) ?_
  refine .head (.record (.permute (List.reverse_perm _).symm)) ?_
  exact .single (.record (.insert [_] [_, _] "kind" (by decide) (.text "")))

theorem decode_of_edits_oddSpelling :
    Json.parse plainSpelling.compact = some plainSpelling ∧
      Json.parse oddSpelling.compact = some oddSpelling ∧
      Relation.ReflTransGen Edit plainSpelling oddSpelling ∧
      ∃ a, decode plainSpelling.compact = .ok a ∧ decode oddSpelling.compact = .ok a := by
  have hplain : Json.parse plainSpelling.compact = some plainSpelling := by
    refine Json.parse_compact ?_
    simp [plainSpelling, Json.object, Json.text, Json.Writable, Json.ItemsWritable,
      Json.MembersWritable]
  have hodd : Json.parse oddSpelling.compact = some oddSpelling := by
    refine Json.parse_compact ?_
    simp [oddSpelling, Json.object, Json.text, Json.Writable, Json.ItemsWritable,
      Json.MembersWritable, Json.writable_int]
  obtain ⟨a, ha⟩ : ∃ a, decode plainSpelling.compact = .ok a := exists_eq_ok (by decide +kernel)
  exact ⟨hplain, hodd, edits_oddSpelling, a, ha,
    (decode_of_edits hplain hodd edits_oddSpelling).symm.trans ha⟩

end Automaton

end TapeLang
