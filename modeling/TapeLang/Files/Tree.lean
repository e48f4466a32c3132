import TapeLang.Files

/-!
A file system held in memory.

The tree is given by the paths of its files and of its directories, from its root down; every
path on the way to one of them is a directory too.  Paths are resolved one component at a time,
so that a component after a file, also an empty one or a dot, is refused.
-/

namespace TapeLang

structure FileTree where
  files : List (List String × ByteArray)
  directories : List (List String)

namespace FileTree

inductive Node where
  | file (bytes : ByteArray)
  | directory

/-- What there is at a path from the root.  A file that is given twice has its last contents. -/
def node? (t : FileTree) (path : List String) : Option Node :=
  match t.files.reverse.find? (·.1 = path) with
  | some (_, bytes) => some (.file bytes)
  | none =>
    if path.isEmpty || (t.files.map (·.1) ++ t.directories).any path.isPrefixOf then
      some .directory
    else none

/-- Where a walk has come to: a path from the root, or somewhere outside the tree, where
nothing is known to be. -/
inductive Place where
  | inside (path : List String)
  | outside

def enter (t : FileTree) (path : List String) (name : String) : Except PathError Place :=
  match t.node? path with
  | none => .error .missing
  | some (.file _) => .error .notDirectory
  | some .directory =>
    if name = "" || name = "." then .ok (.inside path)
    else if name = ".." then
      if path.isEmpty then .ok .outside else .ok (.inside path.dropLast)
    else if (t.node? (path ++ [name])).isSome then .ok (.inside (path ++ [name]))
    else .error .missing

def walk (t : FileTree) : Place → List String → Except PathError Place
  | place, [] => .ok place
  | .inside path, name :: rest => do
    t.walk (← t.enter path name) rest
  | .outside, name :: rest =>
    if name = "" || name = "." || name = ".." then t.walk .outside rest
    else .error .missing

/-- The components of a path, empty ones included. -/
def components : List Char → List String
  | [] => [""]
  | '/' :: rest => "" :: components rest
  | c :: rest =>
    match components rest with
    | [] => [String.singleton c]
    | name :: names => (String.singleton c ++ name) :: names

def resolve (t : FileTree) (path : String) : Except PathError (Place × Node) := do
  let start := if path.toList.head? = some '/' then Place.outside else .inside []
  if path.isEmpty then .error .missing
  else match ← t.walk start (components path.toList) with
    | .outside => return (.outside, .directory)
    | .inside p =>
      match t.node? p with
      | some node => return (.inside p, node)
      | none => .error .missing

/-- The name that a path has directly below a directory, if it leads into it. -/
def childName? (directory path : List String) : Option String :=
  if directory.isPrefixOf path then (path.drop directory.length).head? else none

/-- The names directly below a directory, each once.  All of them can be read. -/
def entries (t : FileTree) (path : String) : Except PathError (List (Except PathError String)) := do
  match ← t.resolve path with
  | (.inside p, .directory) =>
    let names := (t.files.map (·.1) ++ t.directories).filterMap (childName? p)
    return names.eraseDups.map .ok
  | (.outside, .directory) => return []
  | (_, .file _) => .error .notDirectory

def bytes (t : FileTree) (path : String) : Except PathError ByteArray := do
  match ← t.resolve path with
  | (_, .file bytes) => return bytes
  | (_, .directory) => .error .isDirectory

def view (t : FileTree) : FileView where
  bytes := t.bytes
  present path := (t.resolve path).toBool
  isDirectory path :=
    match t.resolve path with
    | .ok (_, .directory) => true
    | _ => false
  entries := t.entries

end FileTree

end TapeLang
