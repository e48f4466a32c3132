/-!
Results that agree.

Two computations that may fail agree if both succeed or both fail, with values and errors that
stand in given relations.  Sequences of steps that agree one by one agree as a whole
(`Agree.bind`).
-/

namespace TapeLang

/-- The values differ at most in what `view` forgets. -/
def EqUpTo {α γ : Type} (view : α → γ) (a b : α) : Prop := view a = view b

/-- Both are values in the relation `R`, or both are errors in the relation `E`. -/
inductive Agree {ε ε' α β : Type} (E : ε → ε' → Prop) (R : α → β → Prop) :
    Except ε α → Except ε' β → Prop
  | ok {a b} (h : R a b) : Agree E R (.ok a) (.ok b)
  | error {e e'} (h : E e e') : Agree E R (.error e) (.error e')

namespace Agree

variable {ε ε' α β γ δ : Type} {E : ε → ε' → Prop} {R : α → β → Prop} {S : γ → δ → Prop}
  {x : Except ε α} {y : Except ε' β}

theorem bind {f : α → Except ε γ} {g : β → Except ε' δ} (h : Agree E R x y)
    (hf : ∀ a b, R a b → Agree E S (f a) (g b)) : Agree E S (x >>= f) (y >>= g) := by
  cases h with
  | ok h => exact hf _ _ h
  | error h => exact .error h

theorem mono_error {E' : ε → ε' → Prop} (h : Agree E R x y) (he : ∀ {e e'}, E e e' → E' e e') :
    Agree E' R x y := by
  cases h with
  | ok h => exact .ok h
  | error h => exact .error (he h)

end Agree

end TapeLang
