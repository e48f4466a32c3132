import TapeLang.Automaton
import TapeLang.Program.Check
import TapeLang.Program.Parser

/-!
Programs as automata.

Every block becomes one state.  The blocks of a module are numbered from zero in the order of
the text, a switch before the blocks inside its cases, and a block's label is the name of its
module followed by its number.  `Block.size` says how many numbers a block takes, so that a
label can be written down before the state it names is made; `Block.length_lower` says that as
many states are made.

Without a flow command control goes to the next block of the same sequence, and from the last
one to `reject`, whether the sequence is the body of a module or of a case.
-/

namespace TapeLang

mutual

def Block.size : Block → Nat
  | .basic _ => 1
  | .switch cases _ => 1 + Case.totalSize cases

def Case.totalSize : List Case → Nat
  | [] => 0
  | .branch _ _ rest _ :: cs => Block.totalSize rest + Case.totalSize cs
  | .loop _ _ _ :: cs => Case.totalSize cs

def Block.totalSize : List Block → Nat
  | [] => 0
  | b :: bs => b.size + Block.totalSize bs

end

def Flow.target : Flow → Label
  | .goto name => .ofIndex name.value 0
  | .accept => .accept
  | .reject => .reject

/-- The transition of a basic block that control leaves to `next` if the block does not say. -/
def BasicBlock.transition (b : BasicBlock) (next : Label) : Transition :=
  ⟨(b.flow.map Flow.target).getD next, b.write.map (·.value), b.move⟩

def CoreBlock.transition (b : CoreBlock) (own : Label) : Transition :=
  ⟨own, b.write.map (·.value), b.move⟩

/-- The label of a sequence that starts at number `index`: nothing is left to do in an empty
one. -/
def Block.entry (module : String) (index : Nat) : List Block → Label
  | [] => .reject
  | _ :: _ => .ofIndex module index

/-- What a switch at `own` does on each symbol, the blocks inside its cases being numbered
from `index`. -/
def Case.entries (module : String) (own : Label) (index : Nat) :
    List Case → List (Symbol × Transition)
  | [] => []
  | .loop symbols body _ :: cs =>
    symbols.map (fun s => (s.value, body.transition own)) ++ Case.entries module own index cs
  | .branch symbols first rest _ :: cs =>
    symbols.map (fun s => (s.value, first.transition (Block.entry module index rest))) ++
      Case.entries module own (index + Block.totalSize rest) cs

mutual

def Block.lowerAll (module : String) (index : Nat) : List Block → List State
  | [] => []
  | b :: bs =>
    b.lower module index (Block.entry module (index + b.size) bs) ++
      Block.lowerAll module (index + b.size) bs

/-- The states of a block with number `index` that control leaves to `next`. -/
def Block.lower (module : String) (index : Nat) (next : Label) : Block → List State
  | .basic b => [.constant (b.transition next)]
  | .switch cases _ =>
    .variable (.ofList (Case.entries module (.ofIndex module index) (index + 1) cases)) ::
      Case.lowerAll module (index + 1) cases

def Case.lowerAll (module : String) (index : Nat) : List Case → List State
  | [] => []
  | .loop _ _ _ :: cs => Case.lowerAll module index cs
  | .branch _ _ rest _ :: cs =>
    Block.lowerAll module index rest ++ Case.lowerAll module (index + Block.totalSize rest) cs

end

mutual

theorem Block.length_lowerAll (module : String) (index : Nat) :
    ∀ bs : List Block, (Block.lowerAll module index bs).length = Block.totalSize bs
  | [] => rfl
  | b :: bs => by
    rw [Block.lowerAll, List.length_append, Block.length_lower, Block.length_lowerAll,
      Block.totalSize]

/-- A block becomes as many states as it takes numbers. -/
theorem Block.length_lower (module : String) (index : Nat) (next : Label) :
    ∀ b : Block, (b.lower module index next).length = b.size
  | .basic _ => rfl
  | .switch cases _ => by
    rw [Block.lower, List.length_cons, Case.length_lowerAll, Block.size, Nat.add_comm]

theorem Case.length_lowerAll (module : String) (index : Nat) :
    ∀ cs : List Case, (Case.lowerAll module index cs).length = Case.totalSize cs
  | [] => rfl
  | .loop _ _ _ :: cs => by rw [Case.lowerAll, Case.length_lowerAll, Case.totalSize]
  | .branch _ _ rest _ :: cs => by
    rw [Case.lowerAll, List.length_append, Block.length_lowerAll, Case.length_lowerAll,
      Case.totalSize]

end

def Module.states (m : Module) : List (Label × State) :=
  (Block.lowerAll m.name.value 0 m.blocks).zipIdx.map
    fun (state, index) => (.ofIndex m.name.value index, state)

namespace Program

/-- Add the states of a module, whose labels have to be new. -/
def define (m : Module) (states : Table Label State) :
    List (Label × State) → Except Report (Table Label State)
  | [] => .ok states
  | (label, state) :: rest =>
    if states.contains label then .error ⟨.repeatedLabel label, m.name.span⟩
    else define m (states.insert label state) rest

def compile (p : Program) : Except Report Automaton := do
  p.check
  match p.modules with
  | [] => .error ⟨.nothingToCompile, p.alphabet.span⟩
  | first :: _ =>
    let states ← p.modules.foldlM (fun states m => define m states m.states) Table.empty
    return ⟨p.alphabet.values, .ofIndex first.name.value 0, states⟩

def compileText (text : String) : Except Report Automaton := do
  (← parse text).compile

end Program

end TapeLang
