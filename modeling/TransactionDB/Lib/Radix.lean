import Mathlib.Algebra.Order.Ring.Nat
import Mathlib.Data.List.Induction
import Mathlib.Tactic.Ring

/-!
# Radix — the number that digits stand for

Digits with the most significant one first, in any base. A part from the left stands for a smaller
number unless everything is zero, and so does the same text in a smaller base unless it is one digit.
-/

namespace Radix

open List

variable {α : Type*} (b : Nat) (digit : α → Nat)

/-- The number of the digits, read from the left. -/
def value (l : List α) : Nat := l.foldl (fun n a => n * b + digit a) 0

variable {b digit}

@[simp] theorem value_nil : value b digit [] = 0 := rfl

theorem value_concat (l : List α) (a : α) : value b digit (l ++ [a]) = value b digit l * b + digit a := by
  simp [value]

theorem value_append (l r : List α) :
    value b digit (l ++ r) = value b digit l * b ^ r.length + value b digit r := by
  induction r using List.reverseRecOn with
  | nil => simp
  | append_singleton r a ih =>
    rw [← append_assoc, value_concat, value_concat, ih, length_append, length_singleton]
    ring

/-- A part from the left stands for the same number only if it is all, or the number is zero. -/
theorem value_eq_append_iff (hb : 2 ≤ b) (l r : List α) :
    value b digit l = value b digit (l ++ r) ↔ r = [] ∨ value b digit (l ++ r) = 0 := by
  rw [value_append]
  cases r with
  | nil => simp
  | cons a r =>
    have hpow : 2 ≤ b ^ (a :: r).length := hb.trans (Nat.le_self_pow (by simp) b)
    simp only [reduceCtorEq, false_or, Nat.add_eq_zero_iff, Nat.mul_eq_zero]
    constructor
    · intro h
      have hle := Nat.mul_le_mul_left (value b digit l) hpow
      exact ⟨Or.inl (by omega), by omega⟩
    · rintro ⟨hl | hpow', hr⟩
      · rw [hl, hr, Nat.zero_mul]
      · omega

theorem value_mono {b' : Nat} (hb : b ≤ b') (l : List α) : value b digit l ≤ value b' digit l := by
  induction l using List.reverseRecOn with
  | nil => exact le_refl _
  | append_singleton l a ih =>
    rw [value_concat, value_concat]
    exact Nat.add_le_add_right (Nat.mul_le_mul ih hb) _

/-- In a smaller base the number is the same only if it is a digit. -/
theorem value_eq_value_iff {b' : Nat} (hb : b < b') {l : List α} (hl : ∀ a ∈ l, digit a < b) :
    value b digit l = value b' digit l ↔ value b' digit l < b ∨ l = [] := by
  induction l using List.reverseRecOn with
  | nil => simp
  | append_singleton l a _ =>
    have ha := hl a (by simp)
    have hmono : value b digit l ≤ value b' digit l := value_mono hb.le l
    rw [value_concat, value_concat]
    simp only [append_eq_nil_iff, cons_ne_self, and_false, or_false]
    constructor
    · intro h
      have hzero : value b' digit l = 0 := by
        by_contra hne
        have hlt := Nat.mul_lt_mul_of_pos_left hb (Nat.pos_of_ne_zero hne)
        have hle := Nat.mul_le_mul_right b hmono
        omega
      rw [hzero]
      omega
    · intro h
      have hzero : value b' digit l = 0 := by
        by_contra hne
        have hle := Nat.mul_le_mul_right b' (Nat.pos_of_ne_zero hne)
        omega
      rw [hzero] at hmono ⊢
      rw [Nat.le_zero.mp hmono, Nat.zero_mul, Nat.zero_mul]

theorem digit_le_value (hb : 0 < b) {l : List α} {a : α} (ha : a ∈ l) : digit a ≤ value b digit l := by
  induction l using List.reverseRecOn with
  | nil => cases ha
  | append_singleton l c ih =>
    rw [value_concat]
    rcases mem_append.mp ha with hl | hc
    · exact ((ih hl).trans (Nat.le_mul_of_pos_right _ hb)).trans (Nat.le_add_right _ _)
    · rw [mem_singleton.mp hc]
      exact Nat.le_add_left _ _

theorem value_le_append (hb : 0 < b) (l r : List α) : value b digit l ≤ value b digit (l ++ r) := by
  rw [value_append]
  exact (Nat.le_mul_of_pos_right _ (Nat.pow_pos hb)).trans (Nat.le_add_right _ _)

end Radix
