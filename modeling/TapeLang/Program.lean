import TapeLang.Span
import TapeLang.Symbol

/-!
Programs as trees.

A program declares the letters of its tape and a list of modules; a module is a sequence of
blocks.  A basic block is one action of the machine, a switch chooses among its cases by the
symbol under the head.  Nothing here says that lists are non-empty or that names are declared:
the parser and the checks do.
-/

namespace TapeLang

structure Alphabet where
  letters : List (Located Char)
  span : Span

def Alphabet.values (a : Alphabet) : List Char := a.letters.map (·.value)

inductive Flow where
  | goto (target : Located String)
  | accept
  | reject

/-- One action: write, move, go on.  Each part may be missing. -/
structure BasicBlock where
  write : Option (Located Symbol)
  move : Option Direction
  flow : Option Flow
  span : Span

/-- An action that does not say where to go on. -/
structure CoreBlock where
  write : Option (Located Symbol)
  move : Option Direction
  span : Span

mutual

inductive Block where
  | basic (block : BasicBlock)
  | switch (cases : List Case) (span : Span)

/-- What to do on some symbols.  A branch acts once and goes on with its remaining blocks; a
loop acts and comes back to the switch it stands in. -/
inductive Case where
  | branch (symbols : List (Located Symbol)) (first : BasicBlock) (rest : List Block) (span : Span)
  | loop (symbols : List (Located Symbol)) (body : CoreBlock) (span : Span)

end

namespace Case

def symbols : Case → List (Located Symbol)
  | .branch symbols .. => symbols
  | .loop symbols .. => symbols

def span : Case → Span
  | .branch _ _ _ span => span
  | .loop _ _ span => span

end Case

structure Module where
  name : Located String
  blocks : List Block
  span : Span

structure Program where
  alphabet : Alphabet
  modules : List Module

end TapeLang
