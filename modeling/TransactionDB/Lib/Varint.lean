import Mathlib.Tactic

/-!
# Varint — numbers in base 128

A number is written seven bits at a time, the lowest first; every byte but the last has its
high bit set. `put n` writes at most `n + 1` bytes and `get n` reads at most `n`; both are
stated on `Nat`, so that a concrete format only adds the width of its integers.
-/

namespace Varint

/-- `v` on as many bytes as it needs, `n + 1` at most. -/
def put : Nat → Nat → List UInt8
  | 0, v => [UInt8.ofNat v]
  | n + 1, v => if v < 128 then [UInt8.ofNat v] else UInt8.ofNat (v % 128 + 128) :: put n (v / 128)

/-- The number at the head of a byte list and how many bytes it takes, if it ends within `n`
bytes. -/
def get : Nat → List UInt8 → Option (Nat × Nat)
  | 0, _ => none
  | _ + 1, [] => none
  | n + 1, b :: bs =>
    if b.toNat < 128 then some (b.toNat, 1)
    else (get n bs).map (fun r => (b.toNat % 128 + 128 * r.1, r.2 + 1))

theorem length_put_pos (n v : Nat) : 0 < (put n v).length := by
  cases n with
  | zero => simp [put]
  | succ n =>
    rw [put]
    split <;> simp

theorem length_put_le (n v : Nat) : (put n v).length ≤ n + 1 := by
  induction n generalizing v with
  | zero => simp [put]
  | succ n ih =>
    rw [put]
    split
    · simp
    · have := ih (v / 128)
      simp only [List.length_cons]
      omega

theorem get_put_zero {v m : Nat} (hv : v < 128) (rest : List UInt8) :
    get (m + 1) (UInt8.ofNat v :: rest) = some (v, 1) := by
  have hb : (UInt8.ofNat v).toNat = v := by
    rw [UInt8.toNat_ofNat']
    exact Nat.mod_eq_of_lt (by omega)
  rw [get, hb, if_pos hv]

/-- **What was written is read back**, with anything behind it, by a reader that may look at all
of its bytes. -/
theorem get_put (n : Nat) : ∀ {v m : Nat} (rest : List UInt8), v < 128 ^ (n + 1) →
    (put n v).length ≤ m → get m (put n v ++ rest) = some (v, (put n v).length) := by
  induction n with
  | zero =>
    intro v m rest hv hm
    obtain ⟨m, rfl⟩ : ∃ k, m = k + 1 := ⟨m - 1, by have := length_put_pos 0 v; omega⟩
    exact get_put_zero (by simpa using hv) rest
  | succ n ih =>
    intro v m rest hv hm
    obtain ⟨m, rfl⟩ : ∃ k, m = k + 1 := ⟨m - 1, by have := length_put_pos (n + 1) v; omega⟩
    rw [put] at hm ⊢
    split
    · rename_i hlt
      exact get_put_zero hlt rest
    · rename_i hge
      rw [if_neg hge, List.length_cons] at hm
      have hdiv : v / 128 < 128 ^ (n + 1) := by
        rw [Nat.div_lt_iff_lt_mul (by decide), ← Nat.pow_succ]
        exact hv
      have hb : (UInt8.ofNat (v % 128 + 128)).toNat = v % 128 + 128 := by
        rw [UInt8.toNat_ofNat']
        exact Nat.mod_eq_of_lt (by omega)
      rw [List.cons_append, get, hb, if_neg (by omega), ih rest hdiv (by omega)]
      simp only [Option.map_some, List.length_cons, Option.some.injEq, Prod.mk.injEq, and_true]
      omega

/-- A number that was cut off is not read: all bytes but the last say that there are more. -/
theorem get_put_take (n : Nat) : ∀ {v k : Nat} (m : Nat), k < (put n v).length →
    get m ((put n v).take k) = none := by
  induction n with
  | zero =>
    intro v k m hk
    obtain rfl : k = 0 := by simpa [put] using hk
    cases m <;> rfl
  | succ n ih =>
    intro v k m hk
    rw [put] at hk ⊢
    split at hk
    · rename_i hlt
      obtain rfl : k = 0 := by simpa using hk
      cases m <;> rfl
    · rename_i hge
      rw [if_neg hge]
      cases k with
      | zero => cases m <;> rfl
      | succ k =>
        cases m with
        | zero => rfl
        | succ m =>
          have hb : (UInt8.ofNat (v % 128 + 128)).toNat = v % 128 + 128 := by
            rw [UInt8.toNat_ofNat']
            exact Nat.mod_eq_of_lt (by omega)
          rw [List.take_succ_cons, get, hb, if_neg (by omega), ih m (by simpa using hk), Option.map_none]

end Varint
