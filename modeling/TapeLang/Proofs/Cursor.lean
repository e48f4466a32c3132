import TapeLang.Program.Parser

/-!
Reading with a cursor.

The readers of `Parser` are handed the tokens that are left, and their types say that they leave
fewer.  Here the same readers keep all tokens and move a place in them, and nothing in their types
says where they get to.  Every look-up by place may fail, and the region of a part is looked up in
the tokens that the cursor has passed (`spanSince`).  No measure of loops and nested readers falls
either: the number they take says how deep rounds and readers may be nested, and who comes deeper
breaks off unfinished.

What these readers do on every list of tokens is the subject of `TapeLang.Proofs.Progress`.
-/

namespace TapeLang
namespace Cursor

open TapeLang.Parser (openBrace closeBrace wrong letterOf symbolOf isName startsCase)

inductive Halt where
  /-- The reader stops. -/
  | stop (why : Parser.Stop)
  /-- There is no token at a place that was looked up. -/
  | outside
  /-- The region of no tokens, or of tokens that are not there, was asked for. -/
  | noRegion
  /-- Rounds of a loop or nested readers came deeper than allowed. -/
  | unfinished

/-- A reader that moves a cursor over a list of tokens. -/
abbrev Walk := ReaderT (List Token) (StateT Nat (Except Halt))

/-- What a walk over `ts` comes to that starts at the place `p`: why it broke off, or its value
and the place where the cursor stands. -/
def Walk.result {α : Type} (x : Walk α) (ts : List Token) (p : Nat) : Except Halt (α × Nat) :=
  x ts p

def stop {α : Type} (why : Parser.Stop) : Walk α := throw (.stop why)

def ofExcept {α : Type} : Except Parser.Stop α → Walk α
  | .ok a => pure a
  | .error why => stop why

def peek : Walk (Option Token) := do
  return (← read)[← get]?

def peekIs (text : String) : Walk Bool := do
  return (← peek).any (·.text = text)

def advance : Walk Token := do
  match ← peek with
  | none => stop .atEnd
  | some t =>
    modify (· + 1)
    return t

def expect (wanted : String) : Walk Token := do
  let t ← advance
  if t.text = wanted then return t
  else ofExcept (wrong (.expected t.text wanted) t.span)

def refuse (text : String) (report : Token → Report) : Walk Unit := do
  if ← peekIs text then
    let t ← advance
    stop (.wrong (report t))

def tokenAt (i : Nat) : Walk Token := do
  match (← read)[i]? with
  | none => throw .outside
  | some t => return t

/-- The region of the tokens that the cursor has passed since it stood at `start`. -/
def spanSince (start : Nat) : Walk Span := do
  let place ← get
  if start < place ∧ place ≤ (← read).length then
    let first ← tokenAt start
    let last ← tokenAt (max place (start + 1) - 1)
    return first.span.upTo last.span
  else throw .noRegion

def letter : Walk (Located Char) := do
  let t ← advance
  return ⟨← ofExcept (letterOf t), t.span⟩

def symbol : Walk (Located Symbol) := do
  let t ← advance
  return ⟨← ofExcept (symbolOf t), t.span⟩

def identifier : Walk (Located String) := do
  let t ← advance
  if isName t then return ⟨t.text, t.span⟩
  else ofExcept (wrong (.badIdentifier t.text) t.span)

def direction : Walk (Located Direction) := do
  let t ← advance
  if t.text = Direction.left.text then return ⟨.left, t.span⟩
  else if t.text = Direction.right.text then return ⟨.right, t.span⟩
  else ofExcept (wrong (.badDirection t.text) t.span)

def moreLetters : Nat → Walk (List (Located Char) × Span)
  | 0 => throw .unfinished
  | n + 1 => do
    let t ← advance
    if t.text = "," then
      let c ← letter
      let (cs, close) ← moreLetters n
      return (c :: cs, close)
    else if t.text = closeBrace then return ([], t.span)
    else ofExcept (wrong (.expected t.text closeBrace) t.span)

def alphabet (n : Nat) : Walk Alphabet := do
  let start ← expect "alphabet"
  let _ ← expect "="
  let _ ← expect openBrace
  refuse closeBrace fun close => ⟨.noLetters, start.span.upTo close.span⟩
  let c ← letter
  let (cs, close) ← moreLetters n
  return ⟨c :: cs, start.span.upTo close⟩

def moreSymbols : Nat → Walk (List (Located Symbol))
  | 0 => throw .unfinished
  | n + 1 => do
    if ← peekIs "," then
      let _ ← advance
      let s ← symbol
      let ss ← moreSymbols n
      return s :: ss
    else return []

def symbols (n : Nat) : Walk (List (Located Symbol)) := do
  let s ← symbol
  let ss ← moreSymbols n
  return s :: ss

def write : Walk (Option (Located Symbol)) := do
  if ← peekIs "changeto" then
    let _ ← advance
    return some (← symbol)
  else return none

def move : Walk (Option Direction) := do
  if ← peekIs "move" then
    let _ ← advance
    return some (← direction).value
  else return none

def flow : Walk (Option Flow) := do
  if ← peekIs "goto" then
    let _ ← advance
    return some (.goto (← identifier))
  else if ← peekIs "accept" then
    let _ ← advance
    return some .accept
  else if ← peekIs "reject" then
    let _ ← advance
    return some .reject
  else return none

def noCommand {α : Type} (problem : String → Problem) : Walk α := do
  match ← peek with
  | none => stop .atEnd
  | some t => ofExcept (wrong (problem t.text) t.span)

/-- The commands of a basic block may all be missing as far as their readers go: only the check
before the region is asked for makes sure that the cursor has moved. -/
def basicBlock : Walk BasicBlock := do
  let start ← get
  let w ← write
  let m ← move
  let f ← flow
  if w.isNone ∧ m.isNone ∧ f.isNone then noCommand .badCommand
  else return ⟨w, m, f, ← spanSince start⟩

def coreBlock : Walk CoreBlock := do
  let start ← get
  let w ← write
  let m ← move
  if w.isNone ∧ m.isNone then noCommand .badCoreCommand
  else return ⟨w, m, ← spanSince start⟩

/-! ## Blocks and cases -/

def loop (n : Nat) : Walk Case := do
  let start ← expect "while"
  refuse openBrace fun _ => ⟨.whileWithoutSymbols, start.span⟩
  let ss ← symbols n
  let _ ← expect openBrace
  refuse closeBrace fun _ => ⟨.whileWithoutCommands, start.span⟩
  let body ← coreBlock
  let close ← advance
  if close.text = closeBrace then return .loop ss body (start.span.upTo close.span)
  else ofExcept (wrong .whileTooLong close.span)

mutual

def blocks : Nat → Walk (List Block × Span)
  | 0 => throw .unfinished
  | n + 1 => do
    match ← peek with
    | none => stop .atEnd
    | some t =>
      if t.text = closeBrace then
        let close ← advance
        return ([], close.span)
      else
        let b ← block n
        let (bs, close) ← blocks n
        return (b :: bs, close)

def block : Nat → Walk Block
  | 0 => throw .unfinished
  | n + 1 => do
    if ← peekIs "switch" then switch n
    else if (← peek).any startsCase then implicitSwitch n
    else return .basic (← basicBlock)

def switch : Nat → Walk Block
  | 0 => throw .unfinished
  | n + 1 => do
    let start ← expect "switch"
    let _ ← expect "tapehead"
    let _ ← expect openBrace
    refuse closeBrace fun close => ⟨.emptySwitch, start.span.upTo close.span⟩
    let (cs, close) ← switchCases n
    return .switch cs (start.span.upTo close)

def switchCases : Nat → Walk (List Case × Span)
  | 0 => throw .unfinished
  | n + 1 => do
    match ← peek with
    | none => stop .atEnd
    | some t =>
      if t.text = closeBrace then
        let _ ← advance
        return ([], t.span)
      else if startsCase t then
        let c ← caseOf n t
        let (cs, close) ← switchCases n
        return (c :: cs, close)
      else ofExcept (wrong (.badCase t.text) t.span)

/-- A run of cases that stands for a switch. -/
def implicitSwitch : Nat → Walk Block
  | 0 => throw .unfinished
  | n + 1 => do
    let start ← get
    let cs ← caseRun n
    return .switch cs (← spanSince start)

def caseRun : Nat → Walk (List Case)
  | 0 => throw .unfinished
  | n + 1 => do
    match ← peek with
    | none => return []
    | some t =>
      if startsCase t then
        let c ← caseOf n t
        let cs ← caseRun n
        return c :: cs
      else return []

def caseOf : Nat → Token → Walk Case
  | 0, _ => throw .unfinished
  | n + 1, t => if t.text = "while" then loop n else branch n

def branch : Nat → Walk Case
  | 0 => throw .unfinished
  | n + 1 => do
    let start ← expect "if"
    refuse openBrace fun _ => ⟨.ifWithoutSymbols, start.span⟩
    let ss ← symbols n
    let _ ← expect openBrace
    refuse closeBrace fun close => ⟨.ifWithoutCommands, start.span.upTo close.span⟩
    let first ← basicBlock
    let (bs, close) ← blocks n
    return .branch ss first bs (start.span.upTo close)

end

def module (n : Nat) : Walk Module := do
  let start ← expect "module"
  let name ← identifier
  let _ ← expect openBrace
  refuse closeBrace fun close => ⟨.emptyModule, start.span.upTo close.span⟩
  let (bs, close) ← blocks n
  return ⟨name, bs, start.span.upTo close⟩

def modules : Nat → Walk (List Module)
  | 0 => throw .unfinished
  | n + 1 => do
    match ← peek with
    | none => return []
    | some _ =>
      let m ← module n
      let ms ← modules n
      return m :: ms

def program (n : Nat) : Walk Program := do
  let a ← alphabet n
  if (← peek).isNone then ofExcept (wrong .noModules a.span)
  else return ⟨a, ← modules n⟩

end Cursor
end TapeLang
