import Mathlib.Data.List.Basic
import TapeLang.Program
import TapeLang.Token

/-!
The grammar of programs.

Every rule relates the tokens at hand, a part of a program, and the tokens that are left once
the part is read.  The rules say nothing about how a reader finds the part, and they are
ambiguous: a run of commands can be cut into basic blocks, and a run of cases into switches,
in more than one way.  `Ending` is what a rule asks of the place where such a part ends.
`Ending.any` asks nothing and gives the plain grammar; `Ending.longest` asks that no other
reading of the same part ends later.

A part also records the region it covers, from its first token to its last one (`Covers`).
-/

namespace TapeLang
namespace Grammar

def Terminal (text : String) (ts rest : List Token) : Prop :=
  ∃ t, ts = t :: rest ∧ t.text = text

/-- The region from the first token to the last one before `rest`. -/
def Covers (ts : List Token) (span : Span) (rest : List Token) : Prop :=
  ∃ first last more, ts = first :: more ∧ last :: rest <:+ ts ∧ span = first.span.upTo last.span

/-- What may name a module: a word that starts with a letter of either case and is no
keyword. -/
def Identifier (name : String) : Prop :=
  name ∉ Token.keywords ∧
    ∃ c cs, name.toList = c :: cs ∧ c.isAlpha ∧ ∀ d ∈ cs, Token.isWordChar d

def IsLetter (ts : List Token) (c : Located Char) (rest : List Token) : Prop :=
  Terminal (String.singleton c.value) ts rest ∧ isLetter c.value ∧ Covers ts c.span rest

inductive IsSymbol : List Token → Located Symbol → List Token → Prop
  | letter {ts c rest} (h : IsLetter ts c rest) : IsSymbol ts ⟨.letter c.value, c.span⟩ rest
  | blank {ts rest span} (h : Terminal "blank" ts rest) (hc : Covers ts span rest) :
    IsSymbol ts ⟨.blank, span⟩ rest

def IsName (ts : List Token) (name : Located String) (rest : List Token) : Prop :=
  Terminal name.value ts rest ∧ Identifier name.value ∧ Covers ts name.span rest

/-- One or more items with commas between them. -/
inductive IsList {α : Type} (item : List Token → α → List Token → Prop) :
    List Token → List α → List Token → Prop
  | one {ts a rest} (h : item ts a rest) : IsList item ts [a] rest
  | more {ts a r r' as rest} (h : item ts a r) (hc : Terminal "," r r')
    (hs : IsList item r' as rest) : IsList item ts (a :: as) rest

def IsWrite (ts : List Token) (s : Located Symbol) (rest : List Token) : Prop :=
  ∃ r, Terminal "changeto" ts r ∧ IsSymbol r s rest

def IsMove (ts : List Token) (d : Direction) (rest : List Token) : Prop :=
  ∃ r, Terminal "move" ts r ∧ Terminal d.text r rest

inductive IsFlow : List Token → Flow → List Token → Prop
  | goto {ts r name rest} (h : Terminal "goto" ts r) (hn : IsName r name rest) :
    IsFlow ts (.goto name) rest
  | accept {ts rest} (h : Terminal "accept" ts rest) : IsFlow ts .accept rest
  | reject {ts rest} (h : Terminal "reject" ts rest) : IsFlow ts .reject rest

inductive IsOption {α : Type} (part : List Token → α → List Token → Prop) :
    List Token → Option α → List Token → Prop
  | missing {ts} : IsOption part ts none ts
  | given {ts a rest} (h : part ts a rest) : IsOption part ts (some a) rest

/-- The commands of a basic block in their order, not all missing. -/
structure IsBasic (ts : List Token) (b : BasicBlock) (rest : List Token) : Prop where
  commands : ∃ r r', IsOption IsWrite ts b.write r ∧ IsOption IsMove r b.move r' ∧
    IsOption IsFlow r' b.flow rest
  some : b.write.isSome ∨ b.move.isSome ∨ b.flow.isSome
  covers : Covers ts b.span rest

structure IsCore (ts : List Token) (b : CoreBlock) (rest : List Token) : Prop where
  commands : ∃ r, IsOption IsWrite ts b.write r ∧ IsOption IsMove r b.move rest
  some : b.write.isSome ∨ b.move.isSome
  covers : Covers ts b.span rest

/-- What is asked of the tokens at the start of a basic block, or of a run of cases that
stands for a switch, and of the tokens after it. -/
structure Ending where
  basic : List Token → List Token → Prop
  run : List Token → List Token → Prop

mutual

inductive IsBlocks (e : Ending) : List Token → List Block → List Token → Prop
  | nil {ts} : IsBlocks e ts [] ts
  | cons {ts b r bs rest} (hb : IsBlock e ts b r) (hbs : IsBlocks e r bs rest) :
    IsBlocks e ts (b :: bs) rest

inductive IsBlock (e : Ending) : List Token → Block → List Token → Prop
  | basic {ts b rest} (h : IsBasic ts b rest) (he : e.basic ts rest) :
    IsBlock e ts (.basic b) rest
  | switch {ts r₁ r₂ r₃ cs r₄ rest span} (h₁ : Terminal "switch" ts r₁)
    (h₂ : Terminal "tapehead" r₁ r₂) (h₃ : Terminal "\x7b" r₂ r₃) (hcs : IsCases e r₃ cs r₄)
    (h₄ : Terminal "\x7d" r₄ rest) (hc : Covers ts span rest) :
    IsBlock e ts (.switch cs span) rest
  | run {ts cs rest span} (hcs : IsCases e ts cs rest) (he : e.run ts rest)
    (hc : Covers ts span rest) : IsBlock e ts (.switch cs span) rest

inductive IsCases (e : Ending) : List Token → List Case → List Token → Prop
  | one {ts c rest} (h : IsCase e ts c rest) : IsCases e ts [c] rest
  | more {ts c r cs rest} (h : IsCase e ts c r) (hcs : IsCases e r cs rest) :
    IsCases e ts (c :: cs) rest

inductive IsCase (e : Ending) : List Token → Case → List Token → Prop
  | branch {ts r₁ ss r₂ r₃ first r₄ bs r₅ rest span} (h₁ : Terminal "if" ts r₁)
    (hs : IsList IsSymbol r₁ ss r₂) (h₂ : Terminal "\x7b" r₂ r₃) (hf : IsBasic r₃ first r₄)
    (he : e.basic r₃ r₄) (hbs : IsBlocks e r₄ bs r₅) (h₃ : Terminal "\x7d" r₅ rest)
    (hc : Covers ts span rest) : IsCase e ts (.branch ss first bs span) rest
  | loop {ts r₁ ss r₂ r₃ body r₄ rest span} (h₁ : Terminal "while" ts r₁)
    (hs : IsList IsSymbol r₁ ss r₂) (h₂ : Terminal "\x7b" r₂ r₃) (hb : IsCore r₃ body r₄)
    (h₃ : Terminal "\x7d" r₄ rest) (hc : Covers ts span rest) :
    IsCase e ts (.loop ss body span) rest

end

/-- Basic blocks and runs of cases may end wherever the rules let them. -/
def Ending.any : Ending := ⟨fun _ _ => True, fun _ _ => True⟩

/-- Basic blocks and runs of cases are as long as the plain grammar lets them be. -/
def Ending.longest : Ending where
  basic ts rest := ∀ b r, IsBasic ts b r → rest.length ≤ r.length
  run ts rest := ∀ cs r, IsCases .any ts cs r → rest.length ≤ r.length

inductive IsModule (e : Ending) : List Token → Module → List Token → Prop
  | mk {ts r₁ name r₂ r₃ bs r₄ rest span} (h₁ : Terminal "module" ts r₁)
    (hn : IsName r₁ name r₂) (h₂ : Terminal "\x7b" r₂ r₃) (hbs : IsBlocks e r₃ bs r₄)
    (hne : bs ≠ []) (h₃ : Terminal "\x7d" r₄ rest) (hc : Covers ts span rest) :
    IsModule e ts ⟨name, bs, span⟩ rest

inductive IsModules (e : Ending) : List Token → List Module → List Token → Prop
  | one {ts m rest} (h : IsModule e ts m rest) : IsModules e ts [m] rest
  | more {ts m r ms rest} (h : IsModule e ts m r) (hms : IsModules e r ms rest) :
    IsModules e ts (m :: ms) rest

inductive IsAlphabet : List Token → Alphabet → List Token → Prop
  | mk {ts r₁ r₂ r₃ letters r₄ rest span} (h₁ : Terminal "alphabet" ts r₁)
    (h₂ : Terminal "=" r₁ r₂) (h₃ : Terminal "\x7b" r₂ r₃) (hl : IsList IsLetter r₃ letters r₄)
    (h₄ : Terminal "\x7d" r₄ rest) (hc : Covers ts span rest) :
    IsAlphabet ts ⟨letters, span⟩ rest

/-- The tokens are the program, and nothing is left of them. -/
def IsProgram (e : Ending) (ts : List Token) (p : Program) : Prop :=
  ∃ r, IsAlphabet ts p.alphabet r ∧ IsModules e r p.modules []

end Grammar
end TapeLang
