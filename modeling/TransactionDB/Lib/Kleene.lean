import Mathlib.Data.Option.Basic
import Mathlib.Data.List.Basic

/-!
# Kleene — three-valued logic

Truth values that may be unknown, and the connectives on them. `isTrue` is what is left when an
unknown value counts as false: it goes through conjunction and disjunction, and through negation where
the value is known (`isTrue_not`).
-/

namespace Kleene

/-- A truth value; `none` is unknown. -/
abbrev Truth := Option Bool

def not (a : Truth) : Truth := a.map Bool.not

def and : Truth → Truth → Truth
  | some false, _ => some false
  | _, some false => some false
  | some true, some true => some true
  | _, _ => none

def or : Truth → Truth → Truth
  | some true, _ => some true
  | _, some true => some true
  | some false, some false => some false
  | _, _ => none

/-- One of them. -/
def any : List Truth → Truth
  | [] => some false
  | a :: as => or a (any as)

def isTrue (a : Truth) : Bool := a.getD false

@[simp] theorem isTrue_some (b : Bool) : isTrue (some b) = b := rfl

@[simp] theorem isTrue_none : isTrue none = false := rfl

/-- A value that is known is what is left of it. -/
theorem eq_some_isTrue {a : Truth} (h : a ≠ none) : a = some (isTrue a) := by
  cases a with
  | none => exact absurd rfl h
  | some b => rfl

@[simp] theorem isTrue_and (a b : Truth) : isTrue (and a b) = (isTrue a && isTrue b) := by
  rcases a with _ | (_ | _) <;> rcases b with _ | (_ | _) <;> rfl

@[simp] theorem isTrue_or (a b : Truth) : isTrue (or a b) = (isTrue a || isTrue b) := by
  rcases a with _ | (_ | _) <;> rcases b with _ | (_ | _) <;> rfl

theorem isTrue_any (as : List Truth) : isTrue (any as) = as.any isTrue := by
  induction as with
  | nil => rfl
  | cons a as ih => rw [any, isTrue_or, ih, List.any_cons]

theorem not_eq_none_iff {a : Truth} : not a = none ↔ a = none := Option.map_eq_none_iff

theorem isTrue_not {a : Truth} (h : a ≠ none) : isTrue (not a) = !isTrue a := by
  cases a with
  | none => exact absurd rfl h
  | some b => rfl

/-- The value, or its negation. -/
def negateIf (negated : Bool) (a : Truth) : Truth := if negated then not a else a

theorem negateIf_eq_none_iff {negated : Bool} {a : Truth} : negateIf negated a = none ↔ a = none := by
  cases negated with
  | true => exact not_eq_none_iff
  | false => exact Iff.rfl

theorem isTrue_negateIf {negated : Bool} {a : Truth} (h : a ≠ none) :
    isTrue (negateIf negated a) = if negated then !isTrue a else isTrue a := by
  cases negated with
  | true => exact isTrue_not h
  | false => rfl

end Kleene
