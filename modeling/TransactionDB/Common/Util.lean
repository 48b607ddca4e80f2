import TransactionDB.Lib.BigEndian
import TransactionDB.Lib.Fields
import TransactionDB.Lib.Varint

/-!
# TransactionDB — status codes, on-disk integers and checksums

`src/common/tdb_util.c` and the status codes of `transactiondb.h`, as far as the storage
layer uses them. All multi-byte integers on disk are big-endian; a reader takes the
buffer and an offset, as `tdb_get_u32(b + off)` does.
-/

namespace Tdb

open Layout BigEndian

abbrev Bytes := List UInt8

/-- `n` zero bytes: what `memset(b, 0, n)` leaves and what a file reads past its end. -/
def zeros (n : Nat) : Bytes := List.replicate n 0

@[simp] theorem length_zeros (n : Nat) : (zeros n).length = n := List.length_replicate

/-- The return codes used here (`tdb_status`). `hang` is not a code of the
source: it stands where the source has no result at all, in a loop that never ends. -/
inductive Status where
  | ok | error | busy | nomem | readonly | ioerr | corrupt | notfound | full | constraint | mismatch
  | misuse | abort | unsupported
  | hang
  deriving DecidableEq, Repr

/-! ## Big-endian integers -/

def putU16 (v : UInt16) : Bytes := beBytes 2 v.toNat

def putU32 (v : UInt32) : Bytes := beBytes 4 v.toNat

/-- `tdb_put_u64`: two 32-bit words, the high one first. -/
def putU64 (v : UInt64) : Bytes :=
  putU32 (UInt32.ofNat (v.toNat / 2 ^ 32)) ++ putU32 (UInt32.ofNat v.toNat)

def getU16 (b : Bytes) (off : Nat) : UInt16 := UInt16.ofNat (beVal (slice b off 2))

def getU32 (b : Bytes) (off : Nat) : UInt32 := UInt32.ofNat (beVal (slice b off 4))

def getU64 (b : Bytes) (off : Nat) : UInt64 :=
  UInt64.ofNat ((getU32 b off).toNat * 2 ^ 32 + (getU32 b (off + 4)).toNat)

@[simp] theorem length_putU16 (v : UInt16) : (putU16 v).length = 2 := length_beBytes 2 _

@[simp] theorem length_putU32 (v : UInt32) : (putU32 v).length = 4 := length_beBytes 4 _

@[simp] theorem length_putU64 (v : UInt64) : (putU64 v).length = 8 := by simp [putU64]

/-- A 16-bit integer read from the window that holds it. -/
theorem getU16_of_slice {b : Bytes} {off : Nat} {v : UInt16} (h : slice b off 2 = putU16 v) :
    getU16 b off = v := by
  have hv : v.toNat < 256 ^ 2 := v.toNat_lt
  rw [getU16, h, putU16, beVal_beBytes, Nat.mod_eq_of_lt hv, UInt16.ofNat_toNat]

/-- A 32-bit integer read from the window that holds it. -/
theorem getU32_of_slice {b : Bytes} {off : Nat} {v : UInt32} (h : slice b off 4 = putU32 v) :
    getU32 b off = v := by
  have hv : v.toNat < 256 ^ 4 := v.toNat_lt
  rw [getU32, h, putU32, beVal_beBytes, Nat.mod_eq_of_lt hv, UInt32.ofNat_toNat]

/-- A 64-bit integer read from the window that holds it. -/
theorem getU64_of_slice {b : Bytes} {off : Nat} {v : UInt64} (h : slice b off 8 = putU64 v) :
    getU64 b off = v := by
  -- the two halves of the window
  have hhi : getU32 b off = UInt32.ofNat (v.toNat / 2 ^ 32) := by
    apply getU32_of_slice
    have := slice_slice b off 8 0 4 (by omega)
    rw [h, Nat.add_zero] at this
    rw [← this, putU64, slice_append_left (by simp)]
    exact slice_zero_length (putU32 (UInt32.ofNat (v.toNat / 2 ^ 32)))
  have hlo : getU32 b (off + 4) = UInt32.ofNat v.toNat := by
    apply getU32_of_slice
    have := slice_slice b off 8 4 4 (by omega)
    rw [h] at this
    rw [← this, putU64, slice_append_right (by simp)]
    exact slice_zero_length (putU32 (UInt32.ofNat v.toNat))
  have hv : v.toNat < 2 ^ 64 := v.toNat_lt
  rw [getU64, hhi, hlo, UInt32.toNat_ofNat', UInt32.toNat_ofNat',
    Nat.mod_eq_of_lt (show v.toNat / 2 ^ 32 < 2 ^ 32 from by omega),
    show v.toNat / 2 ^ 32 * 2 ^ 32 + v.toNat % 2 ^ 32 = v.toNat from by omega,
    UInt64.ofNat_toNat]

/-- Integers only depend on the window they are read from. -/
theorem getU32_congr {b b' : Bytes} {off off' : Nat} (h : slice b off 4 = slice b' off' 4) :
    getU32 b off = getU32 b' off' := by
  rw [getU32, h, getU32]

theorem getU32_zeros (n off : Nat) : getU32 (zeros n) off = 0 := by
  simp [getU32, zeros, slice, List.drop_replicate, List.take_replicate, beVal_replicate_zero]

@[simp] theorem getU32_putU32 (v : UInt32) : getU32 (putU32 v) 0 = v :=
  getU32_of_slice (by simpa using slice_zero_length (putU32 v))

theorem getU32_append_left {xs ys : Bytes} {off : Nat} (h : off + 4 ≤ xs.length) :
    getU32 (xs ++ ys) off = getU32 xs off :=
  getU32_congr (slice_append_left h)

theorem getU32_append_right {xs ys : Bytes} {off : Nat} (h : xs.length ≤ off) :
    getU32 (xs ++ ys) off = getU32 ys (off - xs.length) :=
  getU32_congr (slice_append_right h)

/-! ## Varints -/

/-- `tdb_put_varint`. -/
def putVarint (v : UInt64) : Bytes := Varint.put 9 v.toNat

/-- `tdb_get_varint`: the number and how many bytes it takes, or `none` for its 0. -/
def getVarint (b : Bytes) (avail : Nat) : Option (UInt64 × Nat) :=
  (Varint.get (min avail 10) b).map (fun r => (UInt64.ofNat r.1, r.2))

theorem getVarint_putVarint (v : UInt64) (rest : Bytes) {avail : Nat}
    (h : (putVarint v).length ≤ avail) :
    getVarint (putVarint v ++ rest) avail = some (v, (putVarint v).length) := by
  have hv : v.toNat < 128 ^ 10 := lt_trans v.toNat_lt (by decide)
  have hten : (putVarint v).length ≤ 10 := Varint.length_put_le 9 _
  rw [getVarint, putVarint, Varint.get_put 9 rest hv (le_min h hten)]
  simp

theorem getVarint_take (v : UInt64) {k : Nat} (hk : k < (putVarint v).length) (avail : Nat) :
    getVarint ((putVarint v).take k) avail = none := by
  rw [getVarint, putVarint, Varint.get_put_take 9 _ hk, Option.map_none]

theorem toNat_shift_seven (v : UInt64) : (v >>> 7).toNat = v.toNat / 128 := by
  rw [UInt64.toNat_shiftRight]
  exact Nat.shiftRight_eq_div_pow _ 7

/-- `tdb_varint_len`: seven bits less in every round. -/
def varintLen (v : UInt64) : Nat := if v < 0x80 then 1 else varintLen (v >>> 7) + 1
termination_by v.toNat
decreasing_by
  rename_i hge
  rw [toNat_shift_seven]
  have hle : 128 ≤ v.toNat := UInt64.le_iff_toNat_le.mp (UInt64.not_lt.mp hge)
  omega

theorem length_put_varintLen (n : Nat) : ∀ {v : UInt64}, v.toNat < 128 ^ (n + 1) →
    (Varint.put n v.toNat).length = varintLen v := by
  induction n with
  | zero =>
    intro v hv
    rw [varintLen, if_pos (UInt64.lt_iff_toNat_lt.mpr (by simpa using hv))]
    rfl
  | succ n ih =>
    intro v hv
    rw [varintLen, Varint.put]
    simp only [UInt64.lt_iff_toNat_lt, show (0x80 : UInt64).toNat = 128 from rfl]
    split
    · rfl
    · rw [List.length_cons, ← toNat_shift_seven, ih]
      rw [toNat_shift_seven, Nat.div_lt_iff_lt_mul (by decide), ← Nat.pow_succ]
      exact hv

theorem length_putVarint (v : UInt64) : (putVarint v).length = varintLen v :=
  length_put_varintLen 9 (by have := v.toNat_lt; omega)

/-- Numbers are read one behind the other until the bytes end, `n` at most. -/
def getVarints : Nat → Bytes → Option (List UInt64)
  | _, [] => some []
  | 0, _ => none
  | n + 1, b => (getVarint b b.length).bind fun r => (getVarints n (b.drop r.2)).map (r.1 :: ·)

theorem getVarints_flatMap (vs : List UInt64) : ∀ {n : Nat}, (vs.flatMap putVarint).length ≤ n →
    getVarints n (vs.flatMap putVarint) = some vs := by
  induction vs with
  | nil => exact fun _ => by rw [List.flatMap_nil, getVarints]
  | cons v vs ih =>
    intro n hn
    have hpos : 0 < (putVarint v).length := Varint.length_put_pos 9 _
    rw [List.flatMap_cons] at hn ⊢
    rw [List.length_append] at hn
    obtain ⟨n, rfl⟩ : ∃ k, n = k + 1 := ⟨n - 1, by omega⟩
    rw [getVarints, getVarint_putVarint v _ (by simp), Option.bind_some, List.drop_left, ih (by omega)]
    · rfl
    · exact fun hnil => absurd hpos (by simp [(List.append_eq_nil_iff.mp hnil).1])

/-- **Varints are a self-delimiting code.** -/
theorem varints_self_delimiting :
    (∀ v : UInt64, (putVarint v).length = varintLen v ∧ 1 ≤ varintLen v ∧ varintLen v ≤ 10 ∧
      (∀ rest : Bytes, getVarint (putVarint v ++ rest) (putVarint v ++ rest).length = some (v, varintLen v)) ∧
      ∀ k < varintLen v, getVarint ((putVarint v).take k) k = none) ∧
    ∀ vs : List UInt64, getVarints (vs.flatMap putVarint).length (vs.flatMap putVarint) = some vs := by
  refine ⟨fun v => ?_, fun vs => getVarints_flatMap vs le_rfl⟩
  rw [← length_putVarint]
  exact ⟨rfl, Varint.length_put_pos 9 _, Varint.length_put_le 9 _,
    fun rest => getVarint_putVarint v rest (by simp), fun k hk => getVarint_take v hk k⟩

/-! ## Checksums and hashing -/

/-- Entry `i` of the CRC32C table: eight shifts with the reflected polynomial. -/
def crc32cTable (i : UInt32) : UInt32 :=
  Nat.iterate
    (fun crc => if crc &&& 1 = 1 then (crc >>> 1) ^^^ 0x82F63B78 else crc >>> 1) 8 i

/-- `tdb_crc32c`: software CRC32C (Castagnoli) of `data`, continued from `seed`. -/
def crc32c (seed : UInt32) (data : Bytes) : UInt32 :=
  ~~~ (data.foldl
    (fun crc b => crc32cTable ((crc ^^^ b.toUInt32) &&& 0xff) ^^^ (crc >>> 8)) (~~~ seed))

/-- `tdb_fnv1a`. -/
def fnv1a (data : Bytes) : UInt64 :=
  data.foldl (fun h b => (h ^^^ b.toUInt64) * 1099511628211) 1469598103934665603

-- the check value of CRC32C, on the ASCII digits 1 to 9
example : crc32c 0 [0x31, 0x32, 0x33, 0x34, 0x35, 0x36, 0x37, 0x38, 0x39] = 0xE3069283 := by
  decide +kernel

/-! ## Names -/

/-- `tolower` in the C locale. -/
def lowerAscii (b : UInt8) : UInt8 := if 65 ≤ b ∧ b ≤ 90 then b + 32 else b

/-- `strcasecmp(a, b) == 0`. -/
def sameName (a b : Bytes) : Bool := a.map lowerAscii = b.map lowerAscii

/-! ## Counters -/

theorem toNat_pred {n : UInt32} (h : 0 < n) : (n - 1).toNat + 1 = n.toNat := by
  have hpos : 0 < n.toNat := by simpa using UInt32.lt_iff_toNat_lt.mp h
  have h1 : (1 : UInt32) ≤ n := by
    rw [UInt32.le_iff_toNat_le]
    exact hpos
  rw [UInt32.toNat_sub_of_le _ _ h1, UInt32.toNat_one]
  omega

end Tdb
