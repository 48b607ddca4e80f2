import TransactionDB.Lib.Layout

/-!
# BigEndian — fixed-width big-endian integers in byte lists

`beBytes n v` is `v` written on `n` bytes, most significant first; `beVal` reads a byte
list back. Both directions are stated on `Nat`, so that the fixed-width wrappers of a
concrete format only add their own bound. `beBytesInt` and `beValInt` do the same with two's
complement.
-/

namespace BigEndian

/-- The low `8 * n` bits of `v`, most significant byte first. -/
def beBytes : Nat → Nat → List UInt8
  | 0, _ => []
  | n + 1, v => UInt8.ofNat (v / 256 ^ n) :: beBytes n v

/-- The number a byte list denotes, most significant byte first. -/
def beVal : List UInt8 → Nat
  | [] => 0
  | b :: bs => b.toNat * 256 ^ bs.length + beVal bs

@[simp] theorem length_beBytes (n v : Nat) : (beBytes n v).length = n := by
  induction n with
  | zero => rfl
  | succ n ih => simp [beBytes, ih]

theorem beVal_beBytes (n v : Nat) : beVal (beBytes n v) = v % 256 ^ n := by
  induction n with
  | zero => simp [beBytes, beVal, Nat.mod_one]
  | succ n ih =>
    rw [beBytes, beVal, ih, length_beBytes, UInt8.toNat_ofNat']
    -- the head byte is the next base-256 digit of `v`
    rw [show 2 ^ 8 = 256 from rfl, Nat.pow_succ, Nat.mod_mul, Nat.mul_comm, Nat.add_comm]

theorem beVal_replicate_zero (k : Nat) : beVal (List.replicate k 0) = 0 := by
  induction k with
  | zero => rfl
  | succ k ih => simp [List.replicate_succ, beVal, ih]

theorem beVal_append (xs ys : List UInt8) :
    beVal (xs ++ ys) = beVal xs * 256 ^ ys.length + beVal ys := by
  induction xs with
  | nil => simp [beVal]
  | cons x xs ih =>
    rw [List.cons_append, beVal, beVal, ih, List.length_append, Nat.pow_add]
    ring

theorem beVal_lt (bs : List UInt8) : beVal bs < 256 ^ bs.length := by
  induction bs with
  | nil => simp [beVal]
  | cons b bs ih =>
    have hb : b.toNat ≤ 255 := Nat.le_of_lt_succ b.toNat_lt
    calc beVal (b :: bs) < b.toNat * 256 ^ bs.length + 256 ^ bs.length := by
          simp only [beVal]; omega
      _ = (b.toNat + 1) * 256 ^ bs.length := by ring
      _ ≤ 256 * 256 ^ bs.length := Nat.mul_le_mul_right _ (by omega)
      _ = 256 ^ (b :: bs).length := by simp [Nat.pow_succ]; ring

/-- The high bit of the first byte says which half of the range a number is in. -/
theorem head_lt_iff (b : UInt8) (bs : List UInt8) :
    b.toNat < 128 ↔ 2 * beVal (b :: bs) < 256 ^ (b :: bs).length := by
  have hlt := beVal_lt bs
  rw [beVal, List.length_cons, Nat.pow_succ]
  constructor
  · intro hb
    have : (b.toNat + 1) * 256 ^ bs.length ≤ 128 * 256 ^ bs.length := Nat.mul_le_mul_right _ hb
    rw [Nat.add_mul] at this
    omega
  · intro h
    by_contra hb
    have : 128 * 256 ^ bs.length ≤ b.toNat * 256 ^ bs.length :=
      Nat.mul_le_mul_right _ (Nat.le_of_not_lt hb)
    omega

/-- `v` on `n` bytes in two's complement. -/
def beBytesInt (n : Nat) (v : Int) : List UInt8 := beBytes n (v % 256 ^ n).toNat

/-- The number a byte list denotes in two's complement: the high bit is the sign. -/
def beValInt : List UInt8 → Int
  | [] => 0
  | b :: bs =>
    if b.toNat < 128 then beVal (b :: bs) else beVal (b :: bs) - (256 ^ (b :: bs).length : Nat)

@[simp] theorem length_beBytesInt (n : Nat) (v : Int) : (beBytesInt n v).length = n :=
  length_beBytes n _

theorem beValInt_beBytesInt {n : Nat} {v : Int} (hlo : -(256 ^ n : Nat) ≤ 2 * v)
    (hhi : 2 * v < (256 ^ n : Nat)) : beValInt (beBytesInt n v) = v := by
  have hlen := length_beBytesInt n v
  have hmod : (v % 256 ^ n).toNat < 256 ^ n := by
    have := Int.emod_lt_of_pos v (show (0 : Int) < 256 ^ n by positivity)
    have := Int.emod_nonneg v (show (256 ^ n : Int) ≠ 0 by positivity)
    zify
    omega
  have hval : beVal (beBytesInt n v) = (v % 256 ^ n).toNat := by
    rw [beBytesInt, beVal_beBytes, Nat.mod_eq_of_lt hmod]
  -- the remainder is `v` itself, or `v` one period up
  have hrem : ((v % 256 ^ n).toNat : Int) = if 0 ≤ v then v else v + (256 ^ n : Nat) := by
    rw [Int.toNat_of_nonneg (Int.emod_nonneg v (by positivity))]
    push_cast at hlo hhi ⊢
    split
    · exact Int.emod_eq_of_lt (by omega) (by omega)
    · rw [← Int.add_emod_right]
      exact Int.emod_eq_of_lt (by omega) (by omega)
  cases hbs : beBytesInt n v with
  | nil =>
    rw [hbs, List.length_nil] at hlen
    subst hlen
    simp only [pow_zero] at hlo hhi
    simp only [beValInt]
    omega
  | cons b bs =>
    rw [hbs] at hval hlen
    have hsign := head_lt_iff b bs
    rw [hval, hlen] at hsign
    rw [beValInt, hval, hlen, hrem]
    by_cases hv : 0 ≤ v
    · rw [if_pos hv] at hrem ⊢
      rw [if_pos (hsign.mpr (by omega))]
    · rw [if_neg hv] at hrem ⊢
      rw [if_neg (fun h => absurd (hsign.mp h) (by omega))]
      omega

end BigEndian
