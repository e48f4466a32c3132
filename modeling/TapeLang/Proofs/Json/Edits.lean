import Mathlib.Data.List.Perm.Basic
import TapeLang.Automaton.Json
import TapeLang.Proofs.Json.Integers
import TapeLang.Proofs.Labelling

/-!
Edits that a reader does not notice.

An object may stand for a record or for a table.  The members of a record are known by their names,
so their order says nothing and a member with another name adds nothing, as long as it can be held
in memory.  The members of a table are its entries: their order says nothing if their names are
different, and none can be added.  An edit changes one object; what a reader makes of the object is
the same before and after.
-/

namespace TapeLang

/-- Reading all items succeeds if reading each of them does. -/
theorem mapM_eq_ite {α β : Type} (f : α → Option β) (l : List α) :
    l.mapM f = if l.all fun a => (f a).isSome then some (l.filterMap f) else none := by
  induction l with
  | nil => rfl
  | cons a l ih =>
    rw [List.mapM_cons, ih, List.all_cons, List.filterMap_cons]
    cases f a with
    | none => rfl
    | some b =>
      by_cases h : l.all fun a => (f a).isSome
      · simp only [h, Option.isSome_some, Bool.and_self, if_true]
        rfl
      · simp only [h, Option.isSome_some, Bool.and_false]
        rfl

theorem length_of_mapM_eq_some {α β : Type} {f : α → Option β} {l : List α} {r : List β}
    (h : l.mapM f = some r) : r.length = l.length := by
  induction l generalizing r with
  | nil =>
    cases h
    rfl
  | cons a l ih =>
    rw [List.mapM_cons] at h
    obtain ⟨b, -, h⟩ := Option.bind_eq_some_iff.mp h
    obtain ⟨bs, hbs, h⟩ := Option.bind_eq_some_iff.mp h
    cases h
    rw [List.length_cons, List.length_cons, ih hbs]

theorem mapM_congr {α β : Type} {f g : α → Option β} {l : List α} (h : ∀ a ∈ l, f a = g a) :
    l.mapM f = l.mapM g := by
  induction l with
  | nil => rfl
  | cons a l ih =>
    rw [List.forall_mem_cons] at h
    rw [List.mapM_cons, List.mapM_cons, h.1, ih h.2]

theorem mapM_bind_mapM {α β γ : Type} (f : α → Option β) (g : β → Option γ) (l : List α) :
    ((l.mapM f).bind fun bs => bs.mapM g) = l.mapM fun a => (f a).bind g := by
  induction l with
  | nil => rfl
  | cons a l ih =>
    rw [List.mapM_cons, List.mapM_cons, ← ih]
    cases f a with
    | none => rfl
    | some b =>
      cases l.mapM f with
      | none =>
        show none = (g b).bind fun _ => none
        rw [Option.bind_fun_none]
      | some bs =>
        show (b :: bs).mapM g = _
        rw [List.mapM_cons]
        rfl

/-- The order of entries with different keys says nothing. -/
theorem Table.ofList_perm {κ ν : Type} [LT κ] [DecidableEq κ] [KeyOrder κ] [DecidableLT κ]
    {l l' : List (κ × ν)} (h : l.Perm l') (hkeys : (l.map (·.1)).Nodup) :
    Table.ofList l = Table.ofList l' := by
  have hkeys' : (l'.map (·.1)).Nodup := (h.map _).nodup_iff.mp hkeys
  refine Table.ext fun k => Option.ext fun v => ?_
  rw [get?_ofList hkeys, get?_ofList hkeys', find?_eq_some_of_nodup hkeys,
    find?_eq_some_of_nodup hkeys', h.mem_iff]

namespace Json

theorem loadableMembers_eq_all (depth : Nat) (members : Members) :
    loadableMembers depth members = members.all fun m => m.1.isSome && m.2.loadable depth := by
  induction members with
  | nil => rfl
  | cons m members ih => rw [loadableMembers, ih, List.all_cons]

theorem loadableItems_eq_all (depth : Nat) (items : List Json) :
    loadableItems depth items = items.all (·.loadable depth) := by
  induction items with
  | nil => rfl
  | cons v items ih => rw [loadableItems, ih, List.all_cons]

/-- A value without parts that everyone can hold: no half of a surrogate pair, and no number that
is out of range. -/
inductive Scalar : Json → Prop
  | null : Scalar .null
  | bool (b : Bool) : Scalar (.bool b)
  | text (s : String) : Scalar (.text s)
  | num {n : Numeral} (h : n.IsShort) : Scalar (.num n)

theorem Scalar.loadable {v : Json} (h : v.Scalar) (depth : Nat) : v.loadable depth := by
  cases h with
  | null => rfl
  | bool b => rfl
  | text s => rfl
  | num h => exact Numeral.isFinite_of_isShort h

variable {members members' : Members} {name : String}

theorem given_append (name : String) (front back : Members) :
    given name (front ++ back) = given name front ++ given name back := List.filterMap_append

theorem given_cons_self (name : String) (v : Json) (back : Members) :
    given name ((some name, v) :: back) = v :: given name back :=
  List.filterMap_cons_some (if_pos rfl)

theorem given_cons_of_ne {key : Option String} (h : key ≠ some name) (v : Json) (back : Members) :
    given name ((key, v) :: back) = given name back :=
  List.filterMap_cons_none (if_neg h)

theorem field?_of_perm (h : (given name members).Perm (given name members')) :
    field? members name = field? members' name := by
  unfold field?
  generalize given name members = values at h
  generalize given name members' = values' at h
  match values with
  | [] => rw [h.nil_eq]
  | [v] => rw [List.singleton_perm.mp h]
  | v :: w :: values =>
    match values' with
    | [] => exact absurd h.length_eq (by simp)
    | [v'] => exact absurd h.length_eq (by simp)
    | v' :: w' :: values' => rfl

theorem fields?_of_perm {names : List String}
    (hnames : (members.all fun m => m.1.isSome) = members'.all fun m => m.1.isSome)
    (h : ∀ name ∈ names, (given name members).Perm (given name members')) :
    (Json.obj members).fields? names = (Json.obj members').fields? names := by
  rw [fields?, fields?, hnames, mapM_congr fun name hname => field?_of_perm (h name hname)]

/-! ## Edits of a record -/

/-- An edit of an object that is read for the known names. -/
inductive RecordEdit (known : List String) : Json → Json → Prop
  | permute {members members' : Members} (h : members.Perm members') :
    RecordEdit known (.obj members) (.obj members')
  | insert (front back : Members) (name : String) {v : Json} (hname : name ∉ known)
    (hv : v.Scalar) :
    RecordEdit known (.obj (front ++ back)) (.obj (front ++ (some name, v) :: back))

namespace RecordEdit

variable {known : List String} {j j' : Json}

theorem ne_of_known {other : String} (hname : name ∈ known) (hother : other ∉ known) :
    some other ≠ some name := by
  intro heq
  cases heq
  exact hother hname

/-- The values of a known field are the same, up to their order. -/
theorem given_perm (h : RecordEdit known (.obj members) (.obj members')) (hname : name ∈ known) :
    (given name members).Perm (given name members') := by
  cases h with
  | permute h => exact h.filterMap _
  | insert front back other hother hv =>
    rw [given_append, given_append, given_cons_of_ne (ne_of_known hname hother)]

theorem exists_members (h : RecordEdit known j j') :
    ∃ members members' : Members, j = .obj members ∧ j' = .obj members' ∧
      (members.all fun m => m.1.isSome) = members'.all fun m => m.1.isSome := by
  cases h with
  | permute h => exact ⟨_, _, rfl, rfl, h.all_eq⟩
  | insert front back name hname hv => exact ⟨_, _, rfl, rfl, by simp⟩

theorem fields?_eq (h : RecordEdit known j j') {names : List String} (hnames : names ⊆ known) :
    j.fields? names = j'.fields? names := by
  obtain ⟨members, members', rfl, rfl, hall⟩ := h.exists_members
  exact fields?_of_perm hall fun name hname => h.given_perm (hnames hname)

/-- A record without one of its fields is edited likewise. -/
theorem others (h : RecordEdit known (.obj members) (.obj members')) (hname : name ∈ known) :
    RecordEdit known (.obj (members.filter (·.1 ≠ some name)))
      (.obj (members'.filter (·.1 ≠ some name))) := by
  cases h with
  | permute h => exact .permute (h.filter _)
  | insert front back other hother hv =>
    have hne := ne_of_known hname hother
    rw [List.filter_append, List.filter_append, List.filter_cons_of_pos (by simpa using hne)]
    exact .insert _ _ other hother hv

theorem loadable_eq (h : RecordEdit known j j') (depth : Nat) :
    j.loadable depth = j'.loadable depth := by
  cases h with
  | permute h =>
    rw [loadable, loadable, loadableMembers_eq_all, loadableMembers_eq_all, h.all_eq]
  | insert front back name hname hv =>
    rw [loadable, loadable, loadableMembers_eq_all, loadableMembers_eq_all, List.all_append,
      List.all_append, List.all_cons, hv.loadable]
    rfl

end RecordEdit

/-- An edit of the value of a field, given by its name or by its position. -/
inductive FieldEdit (name : String) (position : Nat) (Edit : Json → Json → Prop) :
    Json → Json → Prop
  | member (front back : Members) {v v' : Json} (h : Edit v v') :
    FieldEdit name position Edit (.obj (front ++ (some name, v) :: back))
      (.obj (front ++ (some name, v') :: back))
  | item {front : List Json} (hfront : front.length = position) (back : List Json) {v v' : Json}
    (h : Edit v v') :
    FieldEdit name position Edit (.arr (front ++ v :: back)) (.arr (front ++ v' :: back))

namespace FieldEdit

variable {Edit : Json → Json → Prop} {position : Nat} {j j' : Json}

theorem loadable_eq (h : FieldEdit name position Edit j j')
    (hedit : ∀ {v v'}, Edit v v' → ∀ depth, v.loadable depth = v'.loadable depth) (depth : Nat) :
    j.loadable depth = j'.loadable depth := by
  cases h with
  | member front back h =>
    simp only [loadable, loadableMembers_eq_all, List.all_append, List.all_cons, hedit h]
  | item hfront back h =>
    simp only [loadable, loadableItems_eq_all, List.all_append, List.all_cons, hedit h]

/-- The field is given twice, or it is given once and its value is the edited one. -/
theorem field?_self (front back : Members) (name : String) (v v' : Json) :
    (field? (front ++ (some name, v) :: back) name = none ∧
      field? (front ++ (some name, v') :: back) name = none) ∨
    (field? (front ++ (some name, v) :: back) name = some (some v) ∧
      field? (front ++ (some name, v') :: back) name = some (some v')) := by
  rw [field?, field?, given_append, given_append, given_cons_self, given_cons_self]
  match given name front, given name back with
  | [], [] => exact .inr ⟨rfl, rfl⟩
  | [], _ :: _ => exact .inl ⟨rfl, rfl⟩
  | [_], _ => exact .inl ⟨rfl, rfl⟩
  | _ :: _ :: _, _ => exact .inl ⟨rfl, rfl⟩

theorem field?_of_ne {other : String} (hne : name ≠ other) (front back : Members) (v v' : Json) :
    field? (front ++ (some name, v) :: back) other =
      field? (front ++ (some name, v') :: back) other := by
  have hne : some name ≠ some other := fun heq => hne (Option.some.inj heq)
  rw [field?, field?, given_append, given_append, given_cons_of_ne hne, given_cons_of_ne hne]

theorem all_isSome (front back : Members) (name : String) (v v' : Json) :
    ((front ++ (some name, v) :: back).all fun m => m.1.isSome) =
      (front ++ (some name, v') :: back).all fun m => m.1.isSome := by
  simp only [List.all_append, List.all_cons]

theorem mapM_field? {names : List String} (hnot : name ∉ names) (front back : Members)
    (v v' : Json) :
    names.mapM (field? (front ++ (some name, v) :: back)) =
      names.mapM (field? (front ++ (some name, v') :: back)) :=
  mapM_congr fun _ hother => field?_of_ne (ne_of_mem_of_not_mem hother hnot).symm front back v v'

/-- Of the fields of a record only the edited one differs. -/
theorem fields? (before after : List String) (h : FieldEdit name before.length Edit j j')
    (hbefore : name ∉ before) (hafter : name ∉ after) :
    (j.fields? (before ++ name :: after) = none ∧ j'.fields? (before ++ name :: after) = none) ∨
    ∃ front back v v', front.length = before.length ∧ Edit v v' ∧
      j.fields? (before ++ name :: after) = some (front ++ some v :: back) ∧
      j'.fields? (before ++ name :: after) = some (front ++ some v' :: back) := by
  cases h with
  | @member front back v v' h =>
    rw [Json.fields?, Json.fields?, all_isSome front back name v v']
    split
    · rw [List.mapM_append, List.mapM_append, List.mapM_cons, List.mapM_cons,
        mapM_field? hbefore front back v v', mapM_field? hafter front back v v']
      cases hb : before.mapM (field? (front ++ (some name, v') :: back)) with
      | none => exact .inl ⟨rfl, rfl⟩
      | some first =>
        rcases field?_self front back name v v' with ⟨hv, hv'⟩ | ⟨hv, hv'⟩
        · rw [hv, hv']
          exact .inl ⟨rfl, rfl⟩
        · rw [hv, hv']
          cases after.mapM (field? (front ++ (some name, v') :: back)) with
          | none => exact .inl ⟨rfl, rfl⟩
          | some last =>
            exact .inr ⟨first, last, v, v', length_of_mapM_eq_some hb, h, rfl, rfl⟩
    · exact .inl ⟨rfl, rfl⟩
  | @item front hfront back v v' h =>
    have hlength : (front ++ v :: back).length = (front ++ v' :: back).length := by simp
    rw [Json.fields?, Json.fields?, hlength]
    split
    · simp only [List.map_append, List.map_cons, List.append_assoc, List.cons_append]
      exact .inr ⟨front.map some, _, v, v', by rw [List.length_map, hfront], h, rfl, rfl⟩
    · exact .inl ⟨rfl, rfl⟩

end FieldEdit

/-- The table of an object, each name and each value of which are read by themselves. -/
def readTable? {κ ν : Type} [LT κ] [DecidableEq κ] [KeyOrder κ] [DecidableLT κ]
    (key : String → Option κ) (read : Json → Option ν) (j : Json) : Option (Table κ ν) := do
  let entries ← (← j.members?).mapM fun (k, v) => do return (← key k, ← read v)
  return .ofList entries

/-- An edit of an object that is read for all its members: their order, or one of their values. -/
inductive TableEdit (Edit : Json → Json → Prop) : Json → Json → Prop
  | permute {members members' : Members} (hkeys : (members.filterMap (·.1)).Nodup)
    (h : members.Perm members') : TableEdit Edit (.obj members) (.obj members')
  | value (front back : Members) (key : Option String) {v v' : Json} (h : Edit v v') :
    TableEdit Edit (.obj (front ++ (key, v) :: back)) (.obj (front ++ (key, v') :: back))

namespace TableEdit

variable {Edit : Json → Json → Prop} {j j' : Json}

theorem loadable_eq (h : TableEdit Edit j j')
    (hedit : ∀ {v v'}, Edit v v' → ∀ depth, v.loadable depth = v'.loadable depth) (depth : Nat) :
    j.loadable depth = j'.loadable depth := by
  cases h with
  | permute hkeys h =>
    rw [loadable, loadable, loadableMembers_eq_all, loadableMembers_eq_all, h.all_eq]
  | value front back key h =>
    simp only [loadable, loadableMembers_eq_all, List.all_append, List.all_cons, hedit h]

variable {κ ν : Type} [LT κ] [DecidableEq κ] [KeyOrder κ] [DecidableLT κ]
  {key : String → Option κ} {read : Json → Option ν}

def readMember? (key : String → Option κ) (read : Json → Option ν) (m : Option String × Json) :
    Option (κ × ν) := do
  return (← key (← m.1), ← read m.2)

omit [LT κ] [DecidableEq κ] [KeyOrder κ] [DecidableLT κ] in
theorem exists_key_of_readMember? {m : Option String × Json} {e : κ × ν}
    (h : readMember? key read m = some e) : ∃ k, m.1 = some k ∧ key k = some e.1 := by
  obtain ⟨k, hk, h⟩ := Option.bind_eq_some_iff.mp h
  obtain ⟨a, ha, h⟩ := Option.bind_eq_some_iff.mp h
  obtain ⟨b, -, h⟩ := Option.bind_eq_some_iff.mp h
  cases h
  exact ⟨k, hk, ha⟩

theorem readTable?_obj (members : Members) :
    readTable? key read (.obj members) =
      (members.mapM (readMember? key read)).bind fun entries => some (.ofList entries) := by
  have hentry : ∀ m : Option String × Json,
      ((m.1.map fun k => (k, m.2)).bind fun e => do return (← key e.1, ← read e.2)) =
        readMember? key read m := by
    intro m
    rw [readMember?, Option.bind_map]
    rfl
  rw [← funext hentry, ← mapM_bind_mapM, Option.bind_assoc]
  rfl

theorem readTable?_eq (h : TableEdit Edit j j')
    (hkey : ∀ {k k' a}, key k = some a → key k' = some a → k = k')
    (hread : ∀ {v v'}, Edit v v' → read v = read v') :
    readTable? key read j = readTable? key read j' := by
  cases h with
  | @permute members members' hkeys h =>
    have hentries : ((members.filterMap (readMember? key read)).map (·.1)).Nodup := by
      rw [List.Nodup, List.pairwise_filterMap] at hkeys
      rw [List.Nodup, List.pairwise_map, List.pairwise_filterMap]
      refine hkeys.imp fun {m m'} hne e he e' he' heq => ?_
      obtain ⟨k, hk, hkey₁⟩ := exists_key_of_readMember? he
      obtain ⟨k', hk', hkey₂⟩ := exists_key_of_readMember? he'
      exact hne k hk k' hk' (hkey hkey₁ (heq ▸ hkey₂))
    rw [readTable?_obj, readTable?_obj, mapM_eq_ite, mapM_eq_ite, h.all_eq]
    split
    · exact congrArg some (Table.ofList_perm (h.filterMap _) hentries)
    · rfl
  | @value front back k v v' h =>
    have hentry : readMember? key read (k, v) = readMember? key read (k, v') := by
      rw [readMember?, readMember?, hread h]
    rw [readTable?_obj, readTable?_obj, List.mapM_append, List.mapM_append, List.mapM_cons,
      List.mapM_cons, hentry]

end TableEdit

end Json
end TapeLang
