/-!
Places in program text.

A `Position` stands between two characters and is moved by the characters it passes.  A
`Span` is the region that a token, a part of a program or an error covers.  Its end line is
one past the line it ends on, while its end column is the column its end position stands at,
so the two fields of a span are not symmetric; `Span.between` is the only place that says so.
-/

namespace TapeLang

/-- A place between two characters.  Lines and columns count from one. -/
structure Position where
  line : Nat
  column : Nat
deriving DecidableEq

namespace Position

def start : Position := ⟨1, 1⟩

/-- A line feed starts a line.  Every other character takes one column, a carriage return
included: before a line feed the column it took is forgotten. -/
def advance (p : Position) (c : Char) : Position :=
  if c = '\n' then ⟨p.line + 1, 1⟩ else ⟨p.line, p.column + 1⟩

def after (p : Position) (cs : List Char) : Position := cs.foldl advance p

@[simp] theorem after_nil (p : Position) : p.after [] = p := rfl

@[simp] theorem after_cons (p : Position) (c : Char) (cs : List Char) :
    p.after (c :: cs) = (p.advance c).after cs := rfl

@[simp] theorem after_append (p : Position) (cs ds : List Char) :
    p.after (cs ++ ds) = (p.after cs).after ds := by
  simp [after]

end Position

structure Span where
  startLine : Nat
  endLine : Nat
  startColumn : Nat
  endColumn : Nat
deriving DecidableEq

namespace Span

def between (first last : Position) : Span :=
  ⟨first.line, last.line + 1, first.column, last.column⟩

def emptyText : Span := between .start .start

/-- The region from the start of `first` to the end of `last`. -/
def upTo (first last : Span) : Span :=
  ⟨first.startLine, last.endLine, first.startColumn, last.endColumn⟩

@[simp] theorem upTo_self (s : Span) : s.upTo s = s := rfl

@[simp] theorem upTo_upTo (a b c : Span) : (a.upTo b).upTo c = a.upTo c := rfl

@[simp] theorem between_upTo_between (p q r s : Position) :
    (between p q).upTo (between r s) = between p s := rfl

end Span

structure Located (α : Type) where
  value : α
  span : Span
deriving DecidableEq

end TapeLang
