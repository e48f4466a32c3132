import TapeLang.Span
import TapeLang.Symbol

/-!
What can be wrong with a program text.

A `Problem` is a cause, a `Report` is a cause at a region of the text, and a `Diagnostic` is
what a reader is shown: a class, a sentence and a region.  The wording of every problem is in
`Problem.message` and nowhere else.
-/

namespace TapeLang

/-- The class of a diagnostic: found while cutting the text into tokens, while reading the
tokens as a program, or while checking and compiling the program. -/
inductive Diagnostic.Kind where
  | lexical
  | syntactic
  | semantic
deriving DecidableEq

structure Diagnostic where
  kind : Diagnostic.Kind
  message : String
  span : Span
deriving DecidableEq

namespace Diagnostic

def Kind.text : Kind → String
  | .lexical => "LexError"
  | .syntactic => "SyntaxError"
  | .semantic => "CompileError"

/-- One line: the region, then the message and a full stop. -/
def render (d : Diagnostic) : String :=
  "Ln " ++ toString d.span.startLine ++ ":" ++ toString d.span.endLine ++
    ", Col " ++ toString d.span.startColumn ++ ":" ++ toString d.span.endColumn ++
    "- " ++ d.message ++ "."

end Diagnostic

inductive Problem where
  -- cutting the text
  | unclosedComment
  -- reading the tokens
  | emptyFile
  | unexpectedEnd
  | expected (found wanted : String)
  | letterLength (found : String)
  | letterClass (found : String)
  | badIdentifier (found : String)
  | badDirection (found : String)
  | badCommand (found : String)
  | badCoreCommand (found : String)
  | badCase (found : String)
  | noLetters
  | noModules
  | emptyModule
  | emptySwitch
  | ifWithoutSymbols
  | ifWithoutCommands
  | whileWithoutSymbols
  | whileWithoutCommands
  | whileTooLong
  -- checking and compiling
  | repeatedLetter (c : Char)
  | repeatedModule (name : String)
  | undefinedModule (name : String)
  | outsideAlphabet (c : Char)
  | handledTwice (s : Symbol)
  | nothingToCompile
  | repeatedLabel (label : String)
deriving DecidableEq

namespace Problem

open Diagnostic (Kind)

def kind : Problem → Kind
  | .unclosedComment => .lexical
  | .repeatedLetter _ | .repeatedModule _ | .undefinedModule _ | .outsideAlphabet _
  | .handledTwice _ | .nothingToCompile | .repeatedLabel _ => .semantic
  | _ => .syntactic

/-- A text between double quotes, as it is. -/
def quoted (s : String) : String := "\"" ++ s ++ "\""

def message : Problem → String
  | .unclosedComment => "Unterminated comment"
  | .emptyFile => "Empty file"
  | .unexpectedEnd => "Unexpected end of file"
  | .expected found wanted => "Expected value " ++ quoted found ++ " to be " ++ quoted wanted
  | .letterLength found => "The value " ++ quoted found ++ " must have length 1"
  | .letterClass found =>
    "The value " ++ quoted found ++ " must be a lowercase character or a number"
  | .badIdentifier found => "Invalid identifier " ++ quoted found
  | .badDirection found => "Invalid direction " ++ quoted found
  | .badCommand found => "Invalid basic command " ++ quoted found
  | .badCoreCommand found => "Invalid core command " ++ quoted found
  | .badCase found => "Unexpected start of case: " ++ quoted found
  | .noLetters => "The alphabet must have at least one letter"
  | .noModules => "A program should have at least one module"
  | .emptyModule => "A module must have at least one block/command"
  | .emptySwitch => "A switch block must have at least one case"
  | .ifWithoutSymbols => "An if case must apply to at least one letter"
  | .ifWithoutCommands => "An if case must have at least one command"
  | .whileWithoutSymbols => "A while case must apply to at least one letter"
  | .whileWithoutCommands => "A while case must have at least one command"
  | .whileTooLong => "A while case cannot have more than one core block"
  | .repeatedLetter c => "Duplicate letter " ++ quoted (String.singleton c) ++ " in the alphabet"
  | .repeatedModule name => "Duplicate module " ++ quoted name
  | .undefinedModule name => "Module " ++ quoted name ++ " is not defined"
  | .outsideAlphabet c =>
    "The value " ++ quoted (String.singleton c) ++ " is not part of the alphabet"
  | .handledTwice s => "The value " ++ quoted s.text ++ " is already handled by another case"
  | .nothingToCompile => "A program should have at least one module"
  | .repeatedLabel label => "The label " ++ quoted label ++ " is defined more than once"

end Problem

structure Report where
  problem : Problem
  span : Span
deriving DecidableEq

def Report.diagnostic (r : Report) : Diagnostic := ⟨r.problem.kind, r.problem.message, r.span⟩

end TapeLang
