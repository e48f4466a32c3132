import TapeLang.Program.Compile

/-!
Program texts that come with the library.
-/

namespace TapeLang
namespace Bundled

def lines (l : List String) : String := String.join (l.map (· ++ "\n"))

theorem toList_lines (l : List String) :
    (lines l).toList = l.flatMap (fun s => s.toList ++ ['\n']) := by
  simp [lines, String.toList_join, List.flatMap_map]

/-- A text of whole lines is compiled from the characters of its lines. -/
theorem compileText_lines (l : List String) :
    Program.compileText (lines l) =
      Token.ofPieces .start (Piece.pieces (l.flatMap fun s => s.toList ++ ['\n'])) >>=
        Program.ofTokens >>= Program.compile := by
  rw [Program.compileText, Program.parse, Token.scan, toList_lines]

def divisibleByTwo : String :=
  lines [
    "// checks whether a binary number is divisible by 2",
    "alphabet = \x7b0, 1\x7d",
    "module isDiv2 \x7b",
    "    while 0, 1 \x7b",
    "        move right",
    "    \x7d if blank \x7b",
    "        move left",
    "        if 0 \x7b",
    "            accept",
    "        \x7d if 1, blank \x7b",
    "            reject",
    "        \x7d",
    "    \x7d",
    "\x7d"]

def binaryIncrement : String :=
  lines [
    "// adds one to a binary number",
    "alphabet = \x7b0, 1\x7d",
    "module increment \x7b",
    "    while 0, 1 \x7b",
    "        move right",
    "    \x7d if blank \x7b",
    "        move left",
    "        goto carry",
    "    \x7d",
    "\x7d",
    "module carry \x7b",
    "    while 1 \x7b",
    "        changeto 0",
    "        move left",
    "    \x7d if 0, blank \x7b",
    "        changeto 1",
    "        accept",
    "    \x7d",
    "\x7d"]

def unaryEven : String :=
  lines [
    "// accepts an even number of ones",
    "alphabet = \x7b1\x7d",
    "module even \x7b",
    "    if 1 \x7b",
    "        move right",
    "        goto odd",
    "    \x7d if blank \x7b",
    "        accept",
    "    \x7d",
    "\x7d",
    "module odd \x7b",
    "    if 1 \x7b",
    "        move right",
    "        goto even",
    "    \x7d if blank \x7b",
    "        reject",
    "    \x7d",
    "\x7d"]

def onlyOnes : String :=
  lines [
    "// accepts words made only of ones",
    "alphabet = \x7b0, 1\x7d",
    "module main \x7b",
    "    switch tapehead \x7b",
    "        while 1 \x7b",
    "            move right",
    "        \x7d",
    "        if blank \x7b",
    "            accept",
    "        \x7d",
    "        if 0 \x7b",
    "            reject",
    "        \x7d",
    "    \x7d",
    "\x7d"]

def erase : String :=
  lines [
    "/* blanks out the input, then accepts */",
    "alphabet = \x7ba, b\x7d",
    "module erase \x7b",
    "    while a, b \x7b",
    "        changeto blank",
    "        move right",
    "    \x7d if blank \x7b",
    "        accept",
    "    \x7d",
    "\x7d"]

def texts : List (String × String) :=
  [("Divisible by 2", divisibleByTwo), ("Binary increment", binaryIncrement),
    ("Unary even", unaryEven), ("Only ones", onlyOnes), ("Erase", erase)]

end Bundled
end TapeLang
