import TapeLang.Program
import TapeLang.Read
import TapeLang.Token

/-!
Tokens as programs.

The reader is a recursive descent with one token of look-ahead.  Every part of it takes at
least one token or says that it may take none, and the recursion between blocks and cases ends
by that.  A basic block and a run of cases take as many tokens as they can.
-/

namespace TapeLang
namespace Parser

/-- Why reading stopped: there was no token where one was needed, or a token was wrong. -/
inductive Stop where
  | atEnd
  | wrong (report : Report)

structure Optional (α : Type) (n : Nat) where
  value : Option α
  rest : List Token
  le : rest.length + value.toList.length ≤ n

def openBrace : String := "\x7b"
def closeBrace : String := "\x7d"

def wrong {α : Type} (problem : Problem) (span : Span) : Except Stop α :=
  .error (.wrong ⟨problem, span⟩)

def next : (ts : List Token) → Except Stop (Read Token Token ts.length)
  | [] => .error .atEnd
  | t :: rest => .ok ⟨t, rest, Nat.lt_succ_self _⟩

def expect (wanted : String) (ts : List Token) : Except Stop (Read Token Token ts.length) := do
  let r ← next ts
  if r.value.text = wanted then return r
  else wrong (.expected r.value.text wanted) r.value.span

/-- Stop with the given report if the next token is `text`. -/
def refuse (text : String) (report : Token → Report) : List Token → Except Stop Unit
  | [] => .ok ()
  | t :: _ => if t.text = text then .error (.wrong (report t)) else .ok ()

/-- The letter a token stands for.  Its length is looked at before its class. -/
def letterOf (t : Token) : Except Stop Char :=
  match t.text.toList with
  | [c] => if isLetter c then .ok c else wrong (.letterClass t.text) t.span
  | _ => wrong (.letterLength t.text) t.span

def symbolOf (t : Token) : Except Stop Symbol :=
  if t.text = Symbol.blankWord then .ok .blank else return .letter (← letterOf t)

def isName (t : Token) : Bool :=
  t.kind = .word && t.text.toList.head?.any Char.isAlpha

def letter (ts : List Token) : Except Stop (Read Token (Located Char) ts.length) := do
  let ⟨t, rest, h⟩ ← next ts
  return ⟨⟨← letterOf t, t.span⟩, rest, h⟩

def symbol (ts : List Token) : Except Stop (Read Token (Located Symbol) ts.length) := do
  let ⟨t, rest, h⟩ ← next ts
  return ⟨⟨← symbolOf t, t.span⟩, rest, h⟩

def identifier (ts : List Token) : Except Stop (Read Token (Located String) ts.length) := do
  let ⟨t, rest, h⟩ ← next ts
  if isName t then return ⟨⟨t.text, t.span⟩, rest, h⟩
  else wrong (.badIdentifier t.text) t.span

def direction (ts : List Token) : Except Stop (Read Token (Located Direction) ts.length) := do
  let ⟨t, rest, h⟩ ← next ts
  if t.text = Direction.left.text then return ⟨⟨.left, t.span⟩, rest, h⟩
  else if t.text = Direction.right.text then return ⟨⟨.right, t.span⟩, rest, h⟩
  else wrong (.badDirection t.text) t.span

/-- The letters after the first one, and the brace that closes the alphabet. -/
def moreLetters (ts : List Token) :
    Except Stop (Read Token (List (Located Char) × Span) ts.length) :=
  match ts with
  | [] => .error .atEnd
  | t :: rest =>
    if t.text = "," then do
      let ⟨c, r, h⟩ ← letter rest
      let ⟨(cs, close), r', h'⟩ ← moreLetters r
      return ⟨(c :: cs, close), r', by simp only [List.length_cons]; omega⟩
    else if t.text = closeBrace then .ok ⟨([], t.span), rest, Nat.lt_succ_self _⟩
    else wrong (.expected t.text closeBrace) t.span
termination_by ts.length

def alphabet (ts : List Token) : Except Stop (Read Token Alphabet ts.length) := do
  let ⟨start, r₁, h₁⟩ ← expect "alphabet" ts
  let ⟨_, r₂, h₂⟩ ← expect "=" r₁
  let ⟨_, r₃, h₃⟩ ← expect openBrace r₂
  refuse closeBrace (fun close => ⟨.noLetters, start.span.upTo close.span⟩) r₃
  let ⟨c, r₄, h₄⟩ ← letter r₃
  let ⟨(cs, close), r₅, h₅⟩ ← moreLetters r₄
  return ⟨⟨c :: cs, start.span.upTo close⟩, r₅, by omega⟩

def moreSymbols (ts : List Token) :
    Except Stop (Read Token (List (Located Symbol)) (ts.length + 1)) :=
  match ts with
  | [] => .ok ⟨[], [], Nat.lt_succ_self _⟩
  | t :: rest =>
    if t.text = "," then do
      let ⟨s, r, h⟩ ← symbol rest
      let ⟨ss, r', h'⟩ ← moreSymbols r
      return ⟨s :: ss, r', by simp only [List.length_cons]; omega⟩
    else .ok ⟨[], t :: rest, Nat.lt_succ_self _⟩
termination_by ts.length

def symbols (ts : List Token) : Except Stop (Read Token (List (Located Symbol)) ts.length) := do
  let ⟨s, r, h⟩ ← symbol ts
  let ⟨ss, r', h'⟩ ← moreSymbols r
  return ⟨s :: ss, r', by omega⟩

/-! ## Commands -/

/-- A command that is there if the next token starts it.  `read` is given that token and the
ones after it, or refuses it as the start of another command. -/
def optional {α : Type}
    (read : (t : Token) → (rest : List Token) →
      Option (Except Stop (Read Token (Located α) (rest.length + 1))))
    (ts : List Token) : Except Stop (Optional (Located α) ts.length) :=
  match ts with
  | [] => .ok ⟨none, [], Nat.le_refl _⟩
  | t :: rest =>
    match read t rest with
    | none => .ok ⟨none, t :: rest, Nat.le_refl _⟩
    | some result => do
      let ⟨a, r, h⟩ ← result
      return ⟨some a, r, h⟩

def write (ts : List Token) : Except Stop (Optional (Located (Located Symbol)) ts.length) :=
  optional (fun t rest =>
    if t.text = "changeto" then some do
      let ⟨s, r, h⟩ ← symbol rest
      return ⟨⟨s, t.span.upTo s.span⟩, r, by omega⟩
    else none) ts

def move (ts : List Token) : Except Stop (Optional (Located Direction) ts.length) :=
  optional (fun t rest =>
    if t.text = "move" then some do
      let ⟨d, r, h⟩ ← direction rest
      return ⟨⟨d.value, t.span.upTo d.span⟩, r, by omega⟩
    else none) ts

def flow (ts : List Token) : Except Stop (Optional (Located Flow) ts.length) :=
  optional (fun t rest =>
    if t.text = "goto" then some do
      let ⟨name, r, h⟩ ← identifier rest
      return ⟨⟨.goto name, t.span.upTo name.span⟩, r, by omega⟩
    else if t.text = "accept" then some (.ok ⟨⟨.accept, t.span⟩, rest, Nat.lt_succ_self _⟩)
    else if t.text = "reject" then some (.ok ⟨⟨.reject, t.span⟩, rest, Nat.lt_succ_self _⟩)
    else none) ts

def noCommand {α : Type} (problem : String → Problem) : List Token → Except Stop α
  | [] => .error .atEnd
  | t :: _ => wrong (problem t.text) t.span

/-- Reads `[changeto …] [move …] [goto … | accept | reject]`, not all missing. -/
def basicBlock (ts : List Token) : Except Stop (Read Token BasicBlock ts.length) := do
  let ⟨w, r₁, h₁⟩ ← write ts
  let ⟨m, r₂, h₂⟩ ← move r₁
  let ⟨f, r₃, h₃⟩ ← flow r₂
  let spans := w.toList.map (·.span) ++ m.toList.map (·.span) ++ f.toList.map (·.span)
  match hs : spans with
  | [] => noCommand .badCommand r₃
  | span :: more =>
    return ⟨⟨w.map (·.value), m.map (·.value), f.map (·.value), span.upTo (more.getLastD span)⟩,
      r₃, by have := congrArg List.length hs; simp [spans] at this; omega⟩

/-- Reads `[changeto …] [move …]`, not both missing. -/
def coreBlock (ts : List Token) : Except Stop (Read Token CoreBlock ts.length) := do
  let ⟨w, r₁, h₁⟩ ← write ts
  let ⟨m, r₂, h₂⟩ ← move r₁
  let spans := w.toList.map (·.span) ++ m.toList.map (·.span)
  match hs : spans with
  | [] => noCommand .badCoreCommand r₂
  | span :: more =>
    return ⟨⟨w.map (·.value), m.map (·.value), span.upTo (more.getLastD span)⟩,
      r₂, by have := congrArg List.length hs; simp [spans] at this; omega⟩

/-! ## Blocks and cases -/

def startsCase (t : Token) : Bool := t.text = "if" || t.text = "while"

/-- Reads `while <symbols> { <core block> }` after its first token. -/
def loopAt (start : Token) (ts : List Token) : Except Stop (Read Token Case ts.length) := do
  refuse openBrace (fun _ => ⟨.whileWithoutSymbols, start.span⟩) ts
  let ⟨ss, r₁, h₁⟩ ← symbols ts
  let ⟨_, r₂, h₂⟩ ← expect openBrace r₁
  refuse closeBrace (fun _ => ⟨.whileWithoutCommands, start.span⟩) r₂
  let ⟨body, r₃, h₃⟩ ← coreBlock r₂
  let ⟨close, r₄, h₄⟩ ← next r₃
  if close.text = closeBrace then
    return ⟨.loop ss body (start.span.upTo close.span), r₄, by omega⟩
  else wrong .whileTooLong close.span

mutual

def blocks (ts : List Token) : Except Stop (Read Token (List Block × Span) ts.length) :=
  match ts with
  | [] => .error .atEnd
  | t :: rest =>
    if t.text = closeBrace then .ok ⟨([], t.span), rest, Nat.lt_succ_self _⟩
    else do
      let ⟨b, r, h⟩ ← blockAt t rest
      let ⟨(bs, close), r', h'⟩ ← blocks r
      return ⟨(b :: bs, close), r', by simp only [List.length_cons]; omega⟩
termination_by 3 * ts.length + 2

def blockAt (t : Token) (rest : List Token) : Except Stop (Read Token Block (rest.length + 1)) :=
  if t.text = "switch" then do
    let ⟨_, r₁, h₁⟩ ← expect "tapehead" rest
    let ⟨_, r₂, h₂⟩ ← expect openBrace r₁
    refuse closeBrace (fun close => ⟨.emptySwitch, t.span.upTo close.span⟩) r₂
    let ⟨(cs, close), r₃, h₃⟩ ← switchCases r₂
    return ⟨.switch cs (t.span.upTo close), r₃, by omega⟩
  else if startsCase t then do
    let ⟨c, r₁, h₁⟩ ← caseAt t rest
    let ⟨cs, r₂, h₂⟩ ← caseRun r₁
    return ⟨.switch (c :: cs) (c.span.upTo ((cs.map Case.span).getLastD c.span)), r₂, by omega⟩
  else do
    let ⟨b, r₁, h₁⟩ ← basicBlock (t :: rest)
    return ⟨.basic b, r₁, h₁⟩
termination_by 3 * (rest.length + 1) + 1

def caseAt (t : Token) (rest : List Token) : Except Stop (Read Token Case (rest.length + 1)) :=
  if t.text = "while" then do
    let ⟨c, r, h⟩ ← loopAt t rest
    return ⟨c, r, by omega⟩
  else do
    refuse openBrace (fun _ => ⟨.ifWithoutSymbols, t.span⟩) rest
    let ⟨ss, r₁, h₁⟩ ← symbols rest
    let ⟨_, r₂, h₂⟩ ← expect openBrace r₁
    refuse closeBrace (fun close => ⟨.ifWithoutCommands, t.span.upTo close.span⟩) r₂
    let ⟨first, r₃, h₃⟩ ← basicBlock r₂
    let ⟨(bs, close), r₄, h₄⟩ ← blocks r₃
    return ⟨.branch ss first bs (t.span.upTo close), r₄, by omega⟩
termination_by 3 * (rest.length + 1)

def switchCases (ts : List Token) : Except Stop (Read Token (List Case × Span) ts.length) :=
  match ts with
  | [] => .error .atEnd
  | t :: rest =>
    if t.text = closeBrace then .ok ⟨([], t.span), rest, Nat.lt_succ_self _⟩
    else if startsCase t then do
      let ⟨c, r, h⟩ ← caseAt t rest
      let ⟨(cs, close), r', h'⟩ ← switchCases r
      return ⟨(c :: cs, close), r', by simp only [List.length_cons]; omega⟩
    else wrong (.badCase t.text) t.span
termination_by 3 * ts.length + 1

def caseRun (ts : List Token) : Except Stop (Read Token (List Case) (ts.length + 1)) :=
  match ts with
  | [] => .ok ⟨[], [], Nat.lt_succ_self _⟩
  | t :: rest =>
    if startsCase t then do
      let ⟨c, r, h⟩ ← caseAt t rest
      let ⟨cs, r', h'⟩ ← caseRun r
      return ⟨c :: cs, r', by simp only [List.length_cons]; omega⟩
    else .ok ⟨[], t :: rest, Nat.lt_succ_self _⟩
termination_by 3 * ts.length + 1

end

def module (ts : List Token) : Except Stop (Read Token Module ts.length) := do
  let ⟨start, r₁, h₁⟩ ← expect "module" ts
  let ⟨name, r₂, h₂⟩ ← identifier r₁
  let ⟨_, r₃, h₃⟩ ← expect openBrace r₂
  refuse closeBrace (fun close => ⟨.emptyModule, start.span.upTo close.span⟩) r₃
  let ⟨(bs, close), r₄, h₄⟩ ← blocks r₃
  return ⟨⟨name, bs, start.span.upTo close⟩, r₄, by omega⟩

def modules (ts : List Token) : Except Stop (List Module) :=
  match ts with
  | [] => .ok []
  | t :: rest => do
    let ⟨m, r, _⟩ ← module (t :: rest)
    return m :: (← modules r)
termination_by ts.length
decreasing_by assumption

def program (ts : List Token) : Except Stop Program := do
  let ⟨a, rest, _⟩ ← alphabet ts
  if rest.isEmpty then wrong .noModules a.span
  else return ⟨a, ← modules rest⟩

end Parser

namespace Program

/-- The program of a list of tokens.  A missing token is reported at the last one there is. -/
def ofTokens (ts : List Token) : Except Report Program :=
  match ts.getLast? with
  | none => .error ⟨.emptyFile, .emptyText⟩
  | some last =>
    match Parser.program ts with
    | .ok p => .ok p
    | .error .atEnd => .error ⟨.unexpectedEnd, last.span⟩
    | .error (.wrong report) => .error report

def parse (text : String) : Except Report Program := do
  ofTokens (← Token.scan text)

end Program

end TapeLang
