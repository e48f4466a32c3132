import TapeLang.Problem

/-!
Program text as tokens.

The text is first cut into pieces: lexemes, gaps (white space and comments) and at most one
comment that is never closed.  Cutting loses nothing (`flatMap_text_pieces`).  The tokens are
the lexemes with the region each of them covers, found by moving a position over the pieces.
What class a token belongs to is a function of its text, so it is not stored.
-/

namespace TapeLang

structure Token where
  text : String
  span : Span
deriving DecidableEq

namespace Token

inductive Kind where
  | keyword
  | word
  | punctuation
  | other
deriving DecidableEq

def keywords : List String :=
  ["alphabet", "module", "switch", "tapehead", "if", "while", "move", "left", "right",
    "changeto", "goto", "accept", "reject", "blank"]

def marks : List String := ["\x7b", "\x7d", ",", "="]

def isWordChar (c : Char) : Bool := c.isAlphanum || c = '_'

def Kind.ofText (s : String) : Kind :=
  if s ∈ keywords then .keyword
  else if s.toList.all isWordChar then .word
  else if s ∈ marks then .punctuation
  else .other

def kind (t : Token) : Kind := .ofText t.text

end Token

/-- What a piece is to the program: nothing, a token, or a comment that the text never
closes. -/
inductive Piece.Role where
  | gap
  | lexeme
  | unclosed
deriving DecidableEq

structure Piece where
  role : Piece.Role
  text : List Char

namespace Piece

def isSpace (c : Char) : Bool := c = ' ' || c = '\t' || c = '\r' || c = '\n'

/-- How many characters there are up to the end of the first closing mark, `seen` of them
being counted already. -/
def closing (seen : Nat) : List Char → Option Nat
  | '*' :: '/' :: _ => some (seen + 2)
  | _ :: rest => closing (seen + 1) rest
  | [] => none

/-- Cut the first piece off the text `c :: rest`.  A line comment leaves its line feed to the
next gap; a block comment ends at the first closing mark after its own two characters. -/
def cut (c : Char) (rest : List Char) : Piece × List Char :=
  if isSpace c then
    (⟨.gap, c :: rest.takeWhile isSpace⟩, rest.dropWhile isSpace)
  else if c = '/' ∧ rest.head? = some '/' then
    (⟨.gap, c :: rest.takeWhile (· ≠ '\n')⟩, rest.dropWhile (· ≠ '\n'))
  else if c = '/' ∧ rest.head? = some '*' then
    match closing 1 rest.tail with
    | some n => (⟨.gap, c :: rest.take n⟩, rest.drop n)
    | none => (⟨.unclosed, c :: rest⟩, [])
  else if Token.isWordChar c then
    (⟨.lexeme, c :: rest.takeWhile Token.isWordChar⟩, rest.dropWhile Token.isWordChar)
  else
    (⟨.lexeme, [c]⟩, rest)

theorem text_cut (c : Char) (rest : List Char) :
    (cut c rest).1.text ++ (cut c rest).2 = c :: rest := by
  unfold cut
  split
  · simp
  · split
    · simp
    · split
      · split <;> simp
      · split <;> simp

theorem length_cut (c : Char) (rest : List Char) : (cut c rest).2.length ≤ rest.length := by
  unfold cut
  split
  · exact (List.dropWhile_sublist _).length_le
  · split
    · exact (List.dropWhile_sublist _).length_le
    · split
      · split <;> simp
      · split
        · exact (List.dropWhile_sublist _).length_le
        · exact Nat.le_refl _

/-- All pieces of a text, in order. -/
def pieces : List Char → List Piece
  | [] => []
  | c :: rest => (cut c rest).1 :: pieces (cut c rest).2
termination_by cs => cs.length
decreasing_by
  have := length_cut c rest
  simp only [List.length_cons]
  omega

/-- The pieces of a text are the whole text. -/
theorem flatMap_text_pieces (cs : List Char) : (pieces cs).flatMap text = cs := by
  fun_induction pieces cs with
  | case1 => rfl
  | case2 c rest ih => rw [List.flatMap_cons, ih, text_cut]

end Piece

namespace Token

/-- The tokens of a list of pieces whose first one starts at `p`. -/
def ofPieces (p : Position) : List Piece → Except Report (List Token)
  | [] => .ok []
  | piece :: rest =>
    let q := p.after piece.text
    match piece.role with
    | .gap => ofPieces q rest
    | .unclosed => .error ⟨.unclosedComment, .between p q⟩
    | .lexeme => do
      let tokens ← ofPieces q rest
      return ⟨String.ofList piece.text, .between p q⟩ :: tokens

/-- The tokens of a program text. -/
def scan (text : String) : Except Report (List Token) :=
  ofPieces .start (Piece.pieces text.toList)

end Token

end TapeLang
