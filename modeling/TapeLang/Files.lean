import TapeLang.Program.Compile

/-!
Programs in files.

What is needed of a file system is a `FileView`: four questions about paths, and everything here
is a function of the answers.  The names of a directory are sorted before its programs are loaded.
Paths and names are texts: a name that is not one cannot be said here.
-/

namespace TapeLang

inductive PathError where
  | missing
  | notDirectory
  | isDirectory
  | notText
deriving DecidableEq

def PathError.message : PathError → String
  | .missing => "No such file or directory (os error 2)"
  | .notDirectory => "Not a directory (os error 20)"
  | .isDirectory => "Is a directory (os error 21)"
  | .notText => "stream did not contain valid UTF-8"

structure FileView where
  bytes : String → Except PathError ByteArray
  present : String → Bool
  isDirectory : String → Bool
  entries : String → Except PathError (List (Except PathError String))

inductive FileProblem where
  | unreadable (path : String) (cause : PathError)
  | tooLarge (path : String) (size : Nat)
  | noDirectory (path : String)
  | unlistable (path : String) (cause : PathError)
  | unreadableEntry (cause : PathError)
deriving DecidableEq

def maxProgramSize : Nat := 65536

def FileProblem.message : FileProblem → String
  | .unreadable path cause => "File error: Failed to read file " ++ path ++ ": " ++ cause.message
  | .tooLarge path size =>
    "File error: Program " ++ path ++ " is too large (" ++ toString size ++ " bytes, at most " ++
      toString maxProgramSize ++ " allowed)"
  | .noDirectory path => "File error: Directory " ++ path ++ " does not exist"
  | .unlistable path cause =>
    "File error: Failed to read directory " ++ path ++ ": " ++ cause.message
  | .unreadableEntry cause => "File error: Failed to read directory entry: " ++ cause.message

inductive LoadError where
  | file (problem : FileProblem)
  | text (report : Report)
deriving DecidableEq

def LoadError.message : LoadError → String
  | .file problem => problem.message
  | .text report => report.diagnostic.render

/-- The text after the last dot of a file name, unless the name starts with that dot. -/
def extension? (name : String) : Option String :=
  let reversed := name.toList.reverse
  match reversed.dropWhile (· ≠ '.') with
  | '.' :: _ :: _ => some (String.ofList (reversed.takeWhile (· ≠ '.')).reverse)
  | _ => none

def programExtension : String := "tml"

def joinPath (directory name : String) : String :=
  if directory.toList.getLast? = some '/' then directory ++ name else directory ++ "/" ++ name

/-- The text of a program file whose bytes were read.  They have to be a text before their
number is looked at. -/
def decodeSource (path : String) : Except PathError ByteArray → Except FileProblem String
  | .error cause => .error (.unreadable path cause)
  | .ok bytes =>
    match String.fromUTF8? bytes with
    | none => .error (.unreadable path .notText)
    | some text =>
      if text.utf8ByteSize > maxProgramSize then .error (.tooLarge path text.utf8ByteSize)
      else .ok text

def compileSource : Except FileProblem String → Except LoadError Automaton
  | .error problem => .error (.file problem)
  | .ok text => (Program.compileText text).mapError .text

namespace FileView

def readSource (view : FileView) (path : String) : Except FileProblem String :=
  decodeSource path (view.bytes path)

def loadProgram (view : FileView) (path : String) : Except LoadError Automaton :=
  compileSource (view.readSource path)

def entryNames : List (Except PathError String) → Except FileProblem (List String)
  | [] => .ok []
  | .error cause :: _ => .error (.unreadableEntry cause)
  | .ok name :: rest => (entryNames rest).map (name :: ·)

def names (view : FileView) (directory : String) : Except FileProblem (List String) :=
  if view.present directory then
    match view.entries directory with
    | .error cause => .error (.unlistable directory cause)
    | .ok entries => entryNames entries
  else .error (.noDirectory directory)

def programPaths (view : FileView) (directory : String) (names : List String) : List String :=
  (names.mergeSort.filter fun name =>
    !view.isDirectory (joinPath directory name) && extension? name = some programExtension).map
      (joinPath directory)

/-- Every program of a directory with its path, or why it was not loaded. -/
def loadPrograms (view : FileView) (directory : String) :
    List (Except LoadError (String × Automaton)) :=
  match view.names directory with
  | .error problem => [.error (.file problem)]
  | .ok names =>
    (view.programPaths directory names).map fun path => (view.loadProgram path).map (path, ·)

end FileView

end TapeLang
