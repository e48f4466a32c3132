import Mathlib.Logic.Function.Basic
import TapeLang.Program

/-!
What a program means, without compiling it.

Control stands at a point: the first of the blocks that are left of a sequence, which is the
body of a module or what a branch does after its first action.  An execution is a point, a head
and the cells of the tape, and `Program.step` takes it one action further.  Nothing here
mentions labels, numbers or tables.

A sequence that is over rejects.  A switch without a case for the symbol under the head stops
the execution, and so does a jump to a module that does not exist.
-/

namespace TapeLang

/-- One step down the tree from a point: past its block, or into what a case of its switch does
after the first action. -/
inductive Turn where
  | past
  | into (case : Nat)
deriving DecidableEq

/-- The turns from the start of a module to a point, the last one first. -/
abbrev Place := List Turn

/-- Blocks that are left of a sequence, the first of them apart, and where they stand. -/
structure Point where
  module : Module
  place : Place
  block : Block
  rest : List Block

inductive Control where
  | here (point : Point)
  | accept
  | reject

def Control.enter (module : Module) (place : Place) : List Block → Control
  | [] => .reject
  | block :: rest => .here ⟨module, place, block, rest⟩

def Module.entry (m : Module) : Control := .enter m [] m.blocks

/-- Control after a block that does not say where to go on. -/
def Point.next (p : Point) : Control := .enter p.module (.past :: p.place) p.rest

/-- Control after the first action of a branch, the case with number `case` of the switch at
this point. -/
def Point.inside (p : Point) (case : Nat) (rest : List Block) : Control :=
  .enter p.module (.into case :: p.place) rest

inductive Stop where
  | accept
  | reject
  | unhandled (symbol : Symbol)
  | undefinedModule (name : String)
deriving DecidableEq

structure Execution where
  control : Control
  head : Int
  cells : Int → Symbol

namespace Execution

def symbol (e : Execution) : Symbol := e.cells e.head

def act (e : Execution) (write : Option (Located Symbol)) (move : Option Direction)
    (control : Control) : Execution where
  control := control
  head := e.head + move.elim 0 Direction.offset
  cells := write.elim e.cells fun s => Function.update e.cells e.head s.value

end Execution

/-- The first case for a symbol, with its number. -/
def Case.choose (s : Symbol) : List Case → Option (Nat × Case)
  | [] => none
  | c :: cs =>
    if s ∈ c.symbols.map (·.value) then some (0, c)
    else (Case.choose s cs).map fun (k, c) => (k + 1, c)

namespace Program

/-- Where a flow command leads, or `next` if there is none. -/
def follow (p : Program) (next : Control) : Option Flow → Except Stop Control
  | none => .ok next
  | some .accept => .ok .accept
  | some .reject => .ok .reject
  | some (.goto name) =>
    match p.modules.find? (·.name.value = name.value) with
    | some m => .ok m.entry
    | none => .error (.undefinedModule name.value)

/-- The action of a basic block that leaves control to `next` if the block does not say. -/
def perform (p : Program) (e : Execution) (b : BasicBlock) (next : Control) :
    Except Stop Execution := do
  let control ← p.follow next b.flow
  return e.act b.write b.move control

def step (p : Program) (e : Execution) : Except Stop Execution :=
  match e.control with
  | .accept => .error .accept
  | .reject => .error .reject
  | .here point =>
    match point.block with
    | .basic b => p.perform e b point.next
    | .switch cases _ =>
      match Case.choose e.symbol cases with
      | none => .error (.unhandled e.symbol)
      | some (_, .loop _ body _) => .ok (e.act body.write body.move e.control)
      | some (k, .branch _ first rest _) => p.perform e first (point.inside k rest)

/-- The execution before its first action: control at the start of the first module, the head
at the first cell of the input, and blanks around it. -/
def start (p : Program) (input : List Symbol) : Execution where
  control := p.modules.head?.elim .reject Module.entry
  head := 0
  cells i := if i < 0 then .blank else input[i.toNat]?.getD .blank

end Program

/-! ## Numbers of points

Points are numbered in the order of the text, a switch before the blocks inside its cases. -/

mutual

def Block.points (module : Module) (place : Place) : List Block → List Point
  | [] => []
  | b :: bs =>
    ⟨module, place, b, bs⟩ ::
      (b.innerPoints module place ++ Block.points module (.past :: place) bs)

def Block.innerPoints (module : Module) (place : Place) : Block → List Point
  | .basic _ => []
  | .switch cases _ => Case.points module place 0 cases

def Case.points (module : Module) (place : Place) (k : Nat) : List Case → List Point
  | [] => []
  | .loop _ _ _ :: cs => Case.points module place (k + 1) cs
  | .branch _ _ rest _ :: cs =>
    Block.points module (.into k :: place) rest ++ Case.points module place (k + 1) cs

end

def Module.points (m : Module) : List Point := Block.points m [] m.blocks

def Point.number (p : Point) : Nat := (p.module.points.map (·.place)).idxOf p.place

end TapeLang
