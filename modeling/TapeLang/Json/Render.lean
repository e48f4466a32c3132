import TapeLang.Json

/-!
Writing JSON.

A value is written on one line or indented by two blanks a level; one function does both,
since the two differ only in what stands after a comma, a bracket and a colon.  In strings the
quote, the backslash and the control characters are escaped, and nothing else is.

Writers put a text in front of the text that follows it, so that a value takes time in
proportion to its text however it is nested.
-/

namespace TapeLang
namespace Json

/-- How a value is laid out: all on one line, or with every item on a line of its own. -/
inductive Layout where
  | compact
  | indented (level : Nat)

namespace Layout

def inner : Layout → Layout
  | .compact => .compact
  | .indented level => .indented (level + 1)

def lineBreak : Layout → List Char
  | .compact => []
  | .indented level => '\n' :: List.replicate (2 * level) ' '

def colon : Layout → List Char
  | .compact => [':']
  | .indented _ => [':', ' ']

end Layout

def escape (c : Char) : List Char :=
  if c = '"' then ['\\', '"']
  else if c = '\\' then ['\\', '\\']
  else if c = '\x08' then ['\\', 'b']
  else if c = '\t' then ['\\', 't']
  else if c = '\n' then ['\\', 'n']
  else if c = '\x0c' then ['\\', 'f']
  else if c = '\r' then ['\\', 'r']
  else if c < ' ' then
    ['\\', 'u', '0', '0', Nat.digitChar (c.toNat / 16), Nat.digitChar (c.toNat % 16)]
  else [c]

/-- A string literal before `after`.  What denotes no text is written as half a surrogate pair,
so that reading it gives the same. -/
def writeText (s : Option String) (after : List Char) : List Char :=
  let inside := match s with
    | some s => s.toList.flatMap escape
    | none => ['\\', 'u', 'd', '8', '0', '0']
  '"' :: (inside ++ '"' :: after)

def Numeral.chars (n : Numeral) : List Char :=
  (if n.negative then ['-'] else []) ++ Nat.toDigits 10 n.whole ++
    (match n.fraction with
      | some ds => '.' :: ds
      | none => []) ++
    (match n.exponent with
      | some e => 'e' :: (if e < 0 then ['-'] else []) ++ Nat.toDigits 10 e.natAbs
      | none => [])

mutual

def write (layout : Layout) (after : List Char) : Json → List Char
  | .null => 'n' :: 'u' :: 'l' :: 'l' :: after
  | .bool true => 't' :: 'r' :: 'u' :: 'e' :: after
  | .bool false => 'f' :: 'a' :: 'l' :: 's' :: 'e' :: after
  | .num n => n.chars ++ after
  | .str s => writeText s after
  | .arr [] => '[' :: ']' :: after
  | .arr (v :: vs) =>
    '[' :: (layout.inner.lineBreak ++
      write layout.inner (writeItems layout.inner (layout.lineBreak ++ ']' :: after) vs) v)
  | .obj [] => '\x7b' :: '\x7d' :: after
  | .obj ((k, v) :: ms) =>
    '\x7b' :: (layout.inner.lineBreak ++ writeText k (layout.colon ++
      write layout.inner (writeMembers layout.inner (layout.lineBreak ++ '\x7d' :: after) ms) v))

def writeItems (layout : Layout) (after : List Char) : List Json → List Char
  | [] => after
  | v :: vs => ',' :: (layout.lineBreak ++ write layout (writeItems layout after vs) v)

def writeMembers (layout : Layout) (after : List Char) : List (Option String × Json) → List Char
  | [] => after
  | (k, v) :: ms =>
    ',' :: (layout.lineBreak ++ writeText k (layout.colon ++
      write layout (writeMembers layout after ms) v))

end

def compact (v : Json) : String := String.ofList (v.write .compact [])

def pretty (v : Json) : String := String.ofList (v.write (.indented 0) [])

end Json
end TapeLang
