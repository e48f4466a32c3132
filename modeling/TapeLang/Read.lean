/-!
Readers that take from the front of a list.

A reader returns its result with what it left, and a proof that it left fewer items than a
bound.  A reader that always takes something is bounded by the length it was given, and one
that may take nothing by one more.  The proofs are what nested readers end by.
-/

namespace TapeLang

/-- A result read from the front of a list of `σ`, and the items after it, of which there are
fewer than `n`. -/
structure Read (σ α : Type) (n : Nat) where
  value : α
  rest : List σ
  lt : rest.length < n

end TapeLang
