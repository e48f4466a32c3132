import TapeLang.CommandLine

/-!
The program: reads the arguments and the file, and prints what `CommandLine.run` says.
-/

namespace TapeLang
namespace CommandLine

/-- The cause of a failure to read a file, by the number the system gives. -/
def pathError : IO.Error → PathError
  | .inappropriateType _ 21 _ => .isDirectory
  | .inappropriateType .. => .notDirectory
  | _ => .missing

def readProgram (path : String) : IO (Except FileProblem String) := do
  let bytes ← (IO.FS.readBinFile path).toBaseIO
  return decodeSource path (bytes.mapError pathError)

end CommandLine
end TapeLang

open TapeLang

def main (args : List String) : IO UInt32 := do
  match CommandLine.parseArguments args with
  | none =>
    IO.eprintln CommandLine.usage
    return 2
  | some options =>
    let exit := CommandLine.run options (← CommandLine.readProgram options.program)
    IO.print exit.out
    IO.eprint exit.err
    return exit.code.toUInt32
