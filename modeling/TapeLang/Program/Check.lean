import TapeLang.Problem
import TapeLang.Program

/-!
What is wrong with a program that is well formed.

`Program.problems` lists every fault in the order of the text: repeated letters, repeated
module names, then the faults of the blocks, an outer block before the blocks inside it.  A
program is accepted if the list is empty, and otherwise its first fault is reported.
-/

namespace TapeLang

structure Scope where
  letters : List Char
  modules : List String

/-- The elements whose key is in `seen` or is the key of an earlier element. -/
def repeated {α β : Type} [DecidableEq β] (key : α → β) (seen : List β) : List α → List α
  | [] => []
  | a :: rest =>
    if key a ∈ seen then a :: repeated key seen rest else repeated key (key a :: seen) rest

namespace Scope

def symbolProblems (scope : Scope) (s : Located Symbol) : List Report :=
  match s.value with
  | .letter c => if c ∈ scope.letters then [] else [⟨.outsideAlphabet c, s.span⟩]
  | .blank => []

def writeProblems (scope : Scope) (write : Option (Located Symbol)) : List Report :=
  write.toList.flatMap scope.symbolProblems

def flowProblems (scope : Scope) : Option Flow → List Report
  | some (.goto target) =>
    if target.value ∈ scope.modules then [] else [⟨.undefinedModule target.value, target.span⟩]
  | _ => []

def basicProblems (scope : Scope) (b : BasicBlock) : List Report :=
  scope.writeProblems b.write ++ scope.flowProblems b.flow

/-- The faults of the symbols of a case, `seen` being the symbols before them in the switch. -/
def matchProblems (scope : Scope) (seen : List Symbol) : List (Located Symbol) → List Report
  | [] => []
  | s :: rest =>
    scope.symbolProblems s ++
      (if s.value ∈ seen then [⟨.handledTwice s.value, s.span⟩] else []) ++
      scope.matchProblems (s.value :: seen) rest

mutual

def blockProblems (scope : Scope) : Block → List Report
  | .basic b => scope.basicProblems b
  | .switch cases _ => scope.casesProblems [] cases

def blocksProblems (scope : Scope) : List Block → List Report
  | [] => []
  | b :: bs => scope.blockProblems b ++ scope.blocksProblems bs

def bodyProblems (scope : Scope) : Case → List Report
  | .loop _ body _ => scope.writeProblems body.write
  | .branch _ first rest _ => scope.basicProblems first ++ scope.blocksProblems rest

def casesProblems (scope : Scope) (seen : List Symbol) : List Case → List Report
  | [] => []
  | c :: cs =>
    scope.matchProblems seen c.symbols ++ scope.bodyProblems c ++
      scope.casesProblems (c.symbols.map (·.value) ++ seen) cs

end

end Scope

namespace Program

def scope (p : Program) : Scope := ⟨p.alphabet.values, p.modules.map (·.name.value)⟩

def problems (p : Program) : List Report :=
  (repeated Located.value [] p.alphabet.letters).map
      (fun l => ⟨.repeatedLetter l.value, l.span⟩) ++
    (repeated (·.name.value) [] p.modules).map
      (fun m => ⟨.repeatedModule m.name.value, m.name.span⟩) ++
    p.modules.flatMap (fun m => p.scope.blocksProblems m.blocks)

/-- Accept a program without faults, or report its first fault. -/
def check (p : Program) : Except Report Unit :=
  match p.problems with
  | [] => .ok ()
  | report :: _ => .error report

end Program

end TapeLang
