import TapeLang.Json.Numeral

/-!
Values of the JSON data format.

The type keeps everything that reading a value can depend on: object members in the order they
are written, repeated ones included, and numbers as they are written.  A string literal whose
escapes name half of a surrogate pair denotes no text and is kept as `none`; it may stand
where nobody looks, and every reader of a text refuses it.
-/

namespace TapeLang

inductive Json where
  | null
  | bool (b : Bool)
  | num (n : Json.Numeral)
  | str (text : Option String)
  | arr (items : List Json)
  | obj (members : List (Option String × Json))

namespace Json

def text (s : String) : Json := .str (some s)

def nat (n : Nat) : Json := .num ⟨false, n, none, none⟩

def int (i : Int) : Json := .num ⟨decide (i < 0), i.natAbs, none, none⟩

def object (members : List (String × Json)) : Json :=
  .obj (members.map fun (k, v) => (some k, v))

mutual

/-- Whether a value can be held in memory with containers at most `depth` deep: every string
is a text, every number is finite. -/
def loadable (depth : Nat) : Json → Bool
  | .null => true
  | .bool _ => true
  | .num n => n.isFinite
  | .str s => s.isSome
  | .arr items => depth != 0 && loadableItems (depth - 1) items
  | .obj members => depth != 0 && loadableMembers (depth - 1) members

def loadableItems (depth : Nat) : List Json → Bool
  | [] => true
  | v :: vs => v.loadable depth && loadableItems depth vs

def loadableMembers (depth : Nat) : List (Option String × Json) → Bool
  | [] => true
  | (k, v) :: ms => k.isSome && v.loadable depth && loadableMembers depth ms

end

end Json

end TapeLang
