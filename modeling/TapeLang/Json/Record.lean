import TapeLang.Json

/-!
How values of other types are laid out in JSON.

A record is written as an object, and may be given as an object in any order of its members
or as an array in the order of its fields.  Members that name no field are passed over; a
field that is given twice is refused.  A choice among names is written as its name, or as an
object with that one member if something belongs to it.
-/

namespace TapeLang
namespace Json

def text? : Json → Option String
  | .str s => s
  | _ => none

def char? (j : Json) : Option Char := do
  match (← j.text?).toList with
  | [c] => some c
  | _ => none

def int? : Json → Option Int
  | .num n => n.toInt?
  | _ => none

def word? (j : Json) : Option Nat := do
  let i ← j.int?
  if 0 ≤ i ∧ i < 0x10000000000000000 then some i.toNat else none

def offset? (j : Json) : Option Int := do
  let i ← j.int?
  if -0x8000000000000000 ≤ i ∧ i < 0x8000000000000000 then some i else none

/-- A part that may be missing, and may be given as null to say so. -/
def optional? {α : Type} (read : Json → Option α) : Option Json → Option (Option α)
  | none => some none
  | some .null => some none
  | some j => (read j).map some

abbrev Members := List (Option String × Json)

def given (name : String) (members : Members) : List Json :=
  members.filterMap fun (k, v) => if k = some name then some v else none

/-- The value given for a name that is given at most once. -/
def field? (members : Members) (name : String) : Option (Option Json) :=
  match given name members with
  | [] => some none
  | [v] => some (some v)
  | _ => none

/-- The values of a record with the given fields, in their order; `none` for one that is not
given. -/
def fields? (names : List String) : Json → Option (List (Option Json))
  | .obj members =>
    if members.all (·.1.isSome) then names.mapM (field? members) else none
  | .arr items =>
    if items.length ≤ names.length then
      some (items.map some ++ List.replicate (names.length - items.length) none)
    else none
  | _ => none

def members? : Json → Option (List (String × Json))
  | .obj members => members.mapM fun (k, v) => k.map (·, v)
  | _ => none

/-- Where a value is read from: straight from its text, or from a copy held in memory because
something after it has to be known first. -/
inductive Origin where
  | text
  | memory

def choice? : Json → Option (String × Option Json)
  | .str (some name) => some (name, none)
  | .obj [(some name, v)] => some (name, some v)
  | _ => none

/-- Whether nothing belongs to a name.  A null may stand for nothing, and in memory an empty
object too. -/
def isNothing (origin : Origin) : Option Json → Bool
  | none => true
  | some .null => true
  | some (.obj []) => match origin with
    | .text => false
    | .memory => true
  | some _ => false

def name? (origin : Origin) (j : Json) : Option String := do
  let (name, payload) ← j.choice?
  if isNothing origin payload then some name else none

end Json
end TapeLang
