import Mathlib.Tactic

/-!
# LowerBound — binary search

The positions of a sorted sequence that are below a target come first. The loop halves the
interval in which the first other one must be.
-/

namespace LowerBound

/-- `while (lo < hi)`, with the middle position tested; `fuel` is at least the length of the
interval. -/
def search (below : Nat → Bool) : Nat → Nat → Nat → Nat
  | 0, lo, _ => lo
  | fuel + 1, lo, hi =>
    if lo < hi then
      if below ((lo + hi) / 2) then search below fuel ((lo + hi) / 2 + 1) hi
      else search below fuel lo ((lo + hi) / 2)
    else lo

/-- The first of `n` positions that is not below the target. -/
def find (below : Nat → Bool) (n : Nat) : Nat := search below n 0 n

variable {below : Nat → Bool} {n : Nat}

/-- The loop keeps: everything in front of `lo` is below the target, nothing from `hi` on is. -/
theorem search_spec (hanti : ∀ i j, i ≤ j → j < n → below j → below i) (fuel : Nat) :
    ∀ {lo hi : Nat}, lo ≤ hi → hi ≤ n → hi - lo ≤ fuel → (∀ i < lo, below i) →
      (∀ i, hi ≤ i → i < n → ¬ below i) →
      search below fuel lo hi ≤ n ∧ (∀ i < search below fuel lo hi, below i) ∧
        ∀ i, search below fuel lo hi ≤ i → i < n → ¬ below i := by
  induction fuel with
  | zero =>
    intro lo hi hle hn hfuel hlow hhigh
    have heq : hi = lo := by omega
    exact ⟨by rw [search]; omega, hlow, heq ▸ hhigh⟩
  | succ fuel ih =>
    intro lo hi hle hn hfuel hlow hhigh
    rw [search]
    by_cases hlt : lo < hi
    · rw [if_pos hlt]
      split
      · next hmid =>
        -- everything up to the middle is below the target
        refine ih (by omega) hn (by omega) (fun i hi' => ?_) hhigh
        exact hanti i _ (by omega) (by omega) hmid
      · next hmid =>
        refine ih (by omega) (by omega) (by omega) hlow (fun i hi' hin hbelow => ?_)
        exact hmid (hanti _ i hi' hin hbelow)
    · rw [if_neg hlt]
      have heq : hi = lo := by omega
      exact ⟨by omega, hlow, heq ▸ hhigh⟩

/-- What is below the target comes first: the search returns where it ends. -/
theorem find_spec (hanti : ∀ i j, i ≤ j → j < n → below j → below i) :
    find below n ≤ n ∧ (∀ i < find below n, below i) ∧ ∀ i, find below n ≤ i → i < n → ¬ below i :=
  search_spec hanti n (Nat.zero_le n) (le_refl n) (by omega) (by simp) (by omega)

end LowerBound
