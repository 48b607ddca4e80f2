import Mathlib.Tactic

/-!
# Fueled — parsers that count their steps

A recursive parser over a list of tokens, written as a function of the number of steps that it may still
take: `out` is the result if they were too few.
-/

namespace Fueled

variable {τ ε α β : Type*}

/-- A value and the tokens behind it, an error, or too few steps. -/
inductive Res (τ ε α : Type*) where
  | ok (a : α) (rest : List τ)
  | err (e : ε)
  | out

namespace Res

def bind (r : Res τ ε α) (f : α → List τ → Res τ ε β) : Res τ ε β :=
  match r with
  | ok a rest => f a rest
  | err e => err e
  | out => out

@[simp] theorem bind_ok (a : α) (rest : List τ) (f : α → List τ → Res τ ε β) :
    (ok a rest : Res τ ε α).bind f = f a rest := rfl

end Res

end Fueled
