import Mathlib.Tactic

/-!
# Binary64 — values of doubles and the rounding of integers to them

A finite double is a whole multiple of the smallest subnormal, `2 ^ (-1074)`; its value is kept as
that whole number. The infinities get the value that their fields write, which is beyond every finite
one. An integer is converted by rounding it to 53 bits, to the nearest, ties to the even one. Rounding
keeps the order of the integers (`roundInt_mono`) but not their difference.
-/

namespace Binary64

/-! ## The format -/

def sign (bits : UInt64) : Bool := 2 ^ 63 ≤ bits.toNat

def exponent (bits : UInt64) : Nat := bits.toNat / 2 ^ 52 % 2 ^ 11

def fraction (bits : UInt64) : Nat := bits.toNat % 2 ^ 52

def IsNan (bits : UInt64) : Prop := exponent bits = 2047 ∧ fraction bits ≠ 0

def IsFinite (bits : UInt64) : Prop := exponent bits ≠ 2047

instance (bits : UInt64) : Decidable (IsNan bits) := inferInstanceAs (Decidable (_ ∧ _))

instance (bits : UInt64) : Decidable (IsFinite bits) := inferInstanceAs (Decidable (_ ≠ _))

/-- The magnitude in units of the smallest subnormal. -/
def magnitude (bits : UInt64) : Nat :=
  if exponent bits = 0 then fraction bits else (2 ^ 52 + fraction bits) * 2 ^ (exponent bits - 1)

/-- The value in units of the smallest subnormal; a NaN has none. -/
def value (bits : UInt64) : Option Int :=
  if IsNan bits then none
  else some (if sign bits then -(magnitude bits : Int) else magnitude bits)

theorem IsFinite.value {bits : UInt64} (h : IsFinite bits) : ∃ x, value bits = some x := by
  have hnan : ¬IsNan bits := fun hn => h hn.1
  exact ⟨_, if_neg hnan⟩

/-! ## Rounding -/

/-- `n / m` to the nearest whole number, ties to the even one. -/
def divEven (n m : Nat) : Nat :=
  if m < 2 * (n % m) ∨ m = 2 * (n % m) ∧ n / m % 2 = 1 then n / m + 1 else n / m

/-- Rounding to `p` significant bits. -/
def roundNat (p n : Nat) : Nat :=
  divEven n (2 ^ (n.log2 + 1 - p)) * 2 ^ (n.log2 + 1 - p)

def roundInt (p : Nat) (i : Int) : Int :=
  if 0 ≤ i then (roundNat p i.natAbs : Int) else -(roundNat p i.natAbs : Int)

/-- The value of the double that an integer is converted to. -/
def ofInt (i : Int) : Int := roundInt 53 i * 2 ^ 1074

theorem div_le_divEven (n m : Nat) : n / m ≤ divEven n m := by
  unfold divEven
  split
  · exact Nat.le_succ _
  · exact Nat.le_refl _

theorem divEven_le (n m : Nat) : divEven n m ≤ n / m + 1 := by
  unfold divEven
  split
  · exact Nat.le_refl _
  · exact Nat.le_succ _

theorem divEven_mono {n n' : Nat} (m : Nat) (h : n ≤ n') : divEven n m ≤ divEven n' m := by
  rcases Nat.lt_or_eq_of_le (Nat.div_le_div_right (c := m) h) with hlt | heq
  · calc divEven n m ≤ n / m + 1 := divEven_le n m
      _ ≤ n' / m := hlt
      _ ≤ divEven n' m := div_le_divEven n' m
  · -- one quotient: the remainders are in order, and the tie is broken the same way
    have hrem : n % m ≤ n' % m := by
      have hn := Nat.div_add_mod n m
      have hn' := Nat.div_add_mod n' m
      rw [heq] at hn
      omega
    unfold divEven
    rw [heq]
    split <;> split <;> omega

/-- Rounding stays below the next power of two. -/
theorem roundNat_le {p n : Nat} : roundNat p n ≤ 2 ^ (p + (n.log2 + 1 - p)) := by
  have hpos : 0 < 2 ^ (n.log2 + 1 - p) := Nat.two_pow_pos _
  have hlt : n / 2 ^ (n.log2 + 1 - p) < 2 ^ p := by
    rw [Nat.div_lt_iff_lt_mul hpos, ← Nat.pow_add]
    exact Nat.lt_of_lt_of_le Nat.lt_log2_self (Nat.pow_le_pow_right (by omega) (by omega))
  have hdiv := divEven_le n (2 ^ (n.log2 + 1 - p))
  rw [Nat.pow_add]
  exact Nat.mul_le_mul_right _ (by omega)

/-- Rounding stays above the last power of two. -/
theorem le_roundNat {p n : Nat} (hp : p ≤ n.log2) (hn : n ≠ 0) : 2 ^ n.log2 ≤ roundNat (p + 1) n := by
  have hpow : 2 ^ n.log2 = 2 ^ p * 2 ^ (n.log2 + 1 - (p + 1)) := by
    rw [← Nat.pow_add]
    congr 1
    omega
  have hle : 2 ^ p ≤ n / 2 ^ (n.log2 + 1 - (p + 1)) := by
    rw [Nat.le_div_iff_mul_le (Nat.two_pow_pos _), ← hpow]
    exact Nat.log2_self_le hn
  calc 2 ^ n.log2 = 2 ^ p * 2 ^ (n.log2 + 1 - (p + 1)) := hpow
    _ ≤ roundNat (p + 1) n := Nat.mul_le_mul_right _ (hle.trans (div_le_divEven _ _))

/-- A number that has room is not changed. -/
theorem roundNat_of_lt {p n : Nat} (h : n < 2 ^ p) : roundNat p n = n := by
  rcases Nat.eq_zero_or_pos n with rfl | hpos
  · simp [roundNat, divEven]
  · have hlog : n.log2 < p := (Nat.log2_lt (by omega)).mpr h
    have hexp : n.log2 + 1 - p = 0 := by omega
    simp [roundNat, divEven, hexp, Nat.mod_one]

theorem roundNat_mono {p n n' : Nat} (hp : 0 < p) (h : n ≤ n') : roundNat p n ≤ roundNat p n' := by
  obtain ⟨q, rfl⟩ : ∃ q, p = q + 1 := ⟨p - 1, by omega⟩
  rcases Nat.eq_zero_or_pos n with rfl | hpos
  · simp [roundNat, divEven]
  have hlog : n.log2 ≤ n'.log2 :=
    (Nat.le_log2 (by omega)).mpr ((Nat.log2_self_le (by omega)).trans h)
  rcases Nat.lt_or_eq_of_le hlog with hlt | heq
  · -- a power of two that is not rounded stands between them
    rcases Nat.lt_or_ge n'.log2 (q + 1) with hsmall | hbig
    · have hn' : n' < 2 ^ (q + 1) := (Nat.log2_lt (by omega)).mp hsmall
      rw [roundNat_of_lt hn', roundNat_of_lt (by omega)]
      exact h
    · refine Nat.le_trans ?_ (le_roundNat (by omega) (by omega))
      refine roundNat_le.trans (Nat.pow_le_pow_right (by omega) ?_)
      omega
  · unfold roundNat
    rw [heq]
    exact Nat.mul_le_mul_right _ (divEven_mono _ h)

theorem roundInt_mono {p : Nat} (hp : 0 < p) {i j : Int} (h : i ≤ j) : roundInt p i ≤ roundInt p j := by
  unfold roundInt
  split
  · next hi =>
    rw [if_pos (by omega)]
    exact Int.ofNat_le.mpr (roundNat_mono hp (by omega))
  · next hi =>
    split
    · omega
    · have hback : roundNat p j.natAbs ≤ roundNat p i.natAbs := roundNat_mono hp (by omega)
      omega

theorem ofInt_mono {i j : Int} (h : i ≤ j) : ofInt i ≤ ofInt j :=
  Int.mul_le_mul_of_nonneg_right (roundInt_mono (by decide) h) (by positivity)

end Binary64
