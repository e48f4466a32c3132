/-!
Names of states.

A state of a compiled module is named by the module and a number.  Two labels name no state:
a machine that reaches one of them has halted.
-/

namespace TapeLang

abbrev Label := String

namespace Label

def accept : Label := "accept"

def reject : Label := "reject"

def isTerminal (l : Label) : Bool := l = accept || l = reject

def ofIndex (module : String) (index : Nat) : Label := module ++ toString index

end Label

end TapeLang
