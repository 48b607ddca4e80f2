import TransactionDB.Common.Util

/-!
# TransactionDB — values and records

`struct tdb_value` and the codec of `src/value/tdb_record.c`. A record is the number of its
columns, a serial type for each, and the bodies; the serial type says of which kind a value is and
how long its body is. Integers take the fewest of 0, 1, 2, 3, 4, 6 or 8 bytes.

A composite value is stored like a blob and comes back as one (`Value.stored`). Apart from that,
what was encoded is decoded (`recordDecode_encode`), and what was decoded can be encoded again
(`recordDecode_fits`). Memory allocation does not fail here.
-/

namespace Tdb

open Layout BigEndian List

variable {n : Nat} {st : UInt64} {vals : List Value}

inductive Value where
  | null
  | int (i : Int64)
  /-- A double, by its bits. -/
  | real (bits : UInt64)
  | text (b : Bytes)
  | blob (b : Bytes)
  /-- A tuple of fields, as a record. -/
  | composite (b : Bytes)
  deriving DecidableEq, Repr

/-- The length of a text or blob is an `int`. -/
def Value.Fits : Value → Prop
  | .text b | .blob b | .composite b => b.length < 2 ^ 31
  | _ => True

/-- A value as it comes back from a record. -/
def Value.stored : Value → Value
  | .composite b => .blob b
  | v => v

/-! ## Serial types -/

/-- `serial_body_len`; `none` for its negative results, among them those of the conversion to
`int`. -/
def serialBodyLen (st : UInt64) : Option Nat :=
  match st.toNat with
  | 0 => some 0
  | 1 => some 1
  | 2 => some 2
  | 3 => some 3
  | 4 => some 4
  | 5 => some 6
  | 6 => some 8
  | 7 => some 8
  | 8 => some 0
  | 9 => some 0
  | 10 => none
  | 11 => none
  | n + 12 => if n / 2 % 2 ^ 32 < 2 ^ 31 then some (n / 2 % 2 ^ 32) else none

/-- `int_serial_type`: the serial type and the length of the body. -/
def intSerialType (v : Int64) : UInt64 × Nat :=
  let i := v.toInt
  if i = 0 then (8, 0)
  else if i = 1 then (9, 0)
  else if -128 ≤ i ∧ i ≤ 127 then (1, 1)
  else if -32768 ≤ i ∧ i ≤ 32767 then (2, 2)
  else if -8388608 ≤ i ∧ i ≤ 8388607 then (3, 3)
  else if -2147483648 ≤ i ∧ i ≤ 2147483647 then (4, 4)
  else if -140737488355328 ≤ i ∧ i ≤ 140737488355327 then (5, 6)
  else (6, 8)

/-- `put_be_signed`. -/
def putBeSigned (v : Int64) (n : Nat) : Bytes := beBytesInt n v.toInt

/-- `get_be_signed`. -/
def getBeSigned (b : Bytes) : Int64 := Int64.ofInt (beValInt b)

/-- The serial type of a value. -/
def Value.serialType : Value → UInt64
  | .null => 0
  | .int i => (intSerialType i).1
  | .real _ => 7
  | .text b => 13 + 2 * UInt64.ofNat b.length
  | .blob b | .composite b => 12 + 2 * UInt64.ofNat b.length

/-- Its bytes in the body. -/
def Value.body : Value → Bytes
  | .null => []
  | .int i => putBeSigned i (intSerialType i).2
  | .real bits => putU64 bits
  | .text b | .blob b | .composite b => b

/-- The value of a serial type with its body. -/
def decodeValue (st : UInt64) (body : Bytes) : Value :=
  let n := st.toNat
  if n = 0 then .null
  else if n = 8 then .int 0
  else if n = 9 then .int 1
  else if 1 ≤ n ∧ n ≤ 6 then .int (getBeSigned body)
  else if n = 7 then .real (getU64 body 0)
  else if 12 ≤ n ∧ n % 2 = 0 then .blob body
  else .text body

/-! ## Records -/

/-- `tdb_record_encode`. -/
def recordEncode (vals : List Value) : Bytes :=
  putVarint (UInt64.ofNat vals.length) ++ vals.flatMap (fun v => putVarint v.serialType)
    ++ vals.flatMap Value.body

/-- The loop over the serial types: those of `n` columns, and what is behind them. -/
def readSerials : Nat → Bytes → Option (List UInt64 × Bytes)
  | 0, b => some ([], b)
  | n + 1, b =>
    match getVarint b b.length with
    | none => none
    | some (st, adv) => (readSerials n (b.drop adv)).map fun (sts, rest) => (st :: sts, rest)

/-- The loop over the bodies. -/
def readBodies : List UInt64 → Bytes → Option (List Value)
  | [], _ => some []
  | st :: sts, b =>
    match serialBodyLen st with
    | none => none
    | some bl =>
      if b.length < bl then none
      else (readBodies sts (b.drop bl)).map (decodeValue st (b.take bl) :: ·)

/-- `tdb_record_decode`: the first `max` values, and how many columns there are. -/
def recordDecode (b : Bytes) (max : Nat) : Except Status (List Value × Nat) :=
  match getVarint b b.length with
  | none => .error .corrupt
  | some (n, adv) =>
    match readSerials n.toNat (b.drop adv) with
    | none => .error .corrupt
    | some (sts, body) =>
      match readBodies sts body with
      | none => .error .corrupt
      | some vals => .ok (vals.take max, sts.length)

/-- The values of a record, with NULL for missing columns. -/
def padRow (ncol : Nat) (rec : Bytes) : Option (List Value) :=
  match recordDecode rec 64 with
  | .ok (vals, _) => some ((List.range ncol).map fun i => vals.getD i .null)
  | .error _ => none

/-! ## One value -/

theorem intSerialType_cases (v : Int64) :
    (v = 0 ∧ intSerialType v = (8, 0)) ∨ (v = 1 ∧ intSerialType v = (9, 0)) ∨
      ∃ st n, intSerialType v = (st, n) ∧ 1 ≤ st.toNat ∧ st.toNat ≤ 6 ∧ serialBodyLen st = some n ∧
        -(256 ^ n : Nat) ≤ 2 * v.toInt ∧ 2 * v.toInt < (256 ^ n : Nat) := by
  have hlo := v.le_toInt
  have hhi := v.toInt_lt
  unfold intSerialType
  by_cases h0 : v.toInt = 0
  · exact .inl ⟨Int64.toInt_inj.mp h0, by simp [h0]⟩
  by_cases h1 : v.toInt = 1
  · exact .inr (.inl ⟨Int64.toInt_inj.mp h1, by simp [h1]⟩)
  refine .inr (.inr ?_)
  simp only [h0, h1, if_false]
  split
  · exact ⟨1, 1, rfl, by decide, by decide, rfl, by omega, by omega⟩
  split
  · exact ⟨2, 2, rfl, by decide, by decide, rfl, by omega, by omega⟩
  split
  · exact ⟨3, 3, rfl, by decide, by decide, rfl, by omega, by omega⟩
  split
  · exact ⟨4, 4, rfl, by decide, by decide, rfl, by omega, by omega⟩
  split
  · exact ⟨5, 6, rfl, by decide, by decide, rfl, by omega, by omega⟩
  · exact ⟨6, 8, rfl, by decide, by decide, rfl, by omega, by omega⟩

theorem getBeSigned_put {v : Int64} (hlo : -(256 ^ n : Nat) ≤ 2 * v.toInt)
    (hhi : 2 * v.toInt < (256 ^ n : Nat)) : getBeSigned (putBeSigned v n) = v := by
  rw [getBeSigned, putBeSigned, beValInt_beBytesInt hlo hhi, Int64.ofInt_toInt]

/-- The serial type of a text (`k` 13) or blob (`k` 12). -/
theorem toNat_bytesType {k : Nat} (hk : k < 14) (hn : n < 2 ^ 31) :
    (UInt64.ofNat k + 2 * UInt64.ofNat n).toNat = k + 2 * n := by
  rw [UInt64.toNat_add, UInt64.toNat_mul, UInt64.toNat_ofNat', UInt64.toNat_ofNat']
  simp only [UInt64.reduceToNat]
  omega

theorem serialBodyLen_bytesType {k : Nat} (hk : k < 2) (hn : n < 2 ^ 31)
    (hst : st.toNat = k + 12 + 2 * n) : serialBodyLen st = some n := by
  have hdiv : (k + 2 * n) / 2 % 2 ^ 32 = n := by omega
  rw [serialBodyLen, hst, show k + 12 + 2 * n = (k + 2 * n) + 12 by omega]
  simp only [hdiv, if_pos hn]

theorem serialBodyLen_serialType {v : Value} (hv : v.Fits) :
    serialBodyLen v.serialType = some v.body.length := by
  cases v with
  | null => rfl
  | int i =>
    rcases intSerialType_cases i with ⟨-, h⟩ | ⟨-, h⟩ | ⟨st, n, h, -, -, hlen, -, -⟩ <;>
      simp only [Value.serialType, Value.body, h, putBeSigned, length_beBytesInt]
    · rfl
    · rfl
    · exact hlen
  | real bits => simp [Value.serialType, Value.body, serialBodyLen]
  | text b => exact serialBodyLen_bytesType (k := 1) (by decide) hv (toNat_bytesType (by decide) hv)
  | blob b => exact serialBodyLen_bytesType (k := 0) (by decide) hv (toNat_bytesType (by decide) hv)
  | composite b =>
    exact serialBodyLen_bytesType (k := 0) (by decide) hv (toNat_bytesType (by decide) hv)

/-- A serial type from 12 on is that of a blob or a text. -/
theorem decodeValue_bytes (hst : 12 ≤ st.toNat) (body : Bytes) :
    decodeValue st body = if st.toNat % 2 = 0 then .blob body else .text body := by
  simp only [decodeValue]
  rw [if_neg (by omega), if_neg (by omega), if_neg (by omega), if_neg (by omega),
    if_neg (by omega)]
  simp only [hst, true_and]

theorem decodeValue_serialType {v : Value} (hv : v.Fits) :
    decodeValue v.serialType v.body = v.stored := by
  cases v with
  | null => rfl
  | int i =>
    rcases intSerialType_cases i with ⟨rfl, h⟩ | ⟨rfl, h⟩ | ⟨st, n, h, hlo, hhi, -, hmin, hmax⟩
    · rfl
    · rfl
    · simp only [Value.serialType, Value.body, Value.stored, h, decodeValue]
      rw [if_neg (by omega), if_neg (by omega), if_neg (by omega), if_pos ⟨hlo, hhi⟩,
        getBeSigned_put hmin hmax]
  | real bits =>
    have hget : getU64 (putU64 bits) 0 = bits :=
      getU64_of_slice (by simpa using slice_zero_length (putU64 bits))
    simp [Value.serialType, Value.body, Value.stored, decodeValue, hget]
  | text b =>
    have hst : (Value.text b).serialType.toNat = 13 + 2 * b.length := toNat_bytesType (by decide) hv
    rw [decodeValue_bytes (by omega), hst, if_neg (by omega)]
    rfl
  | blob b =>
    have hst : (Value.blob b).serialType.toNat = 12 + 2 * b.length := toNat_bytesType (by decide) hv
    rw [decodeValue_bytes (by omega), hst, if_pos (by omega)]
    rfl
  | composite b =>
    have hst : (Value.composite b).serialType.toNat = 12 + 2 * b.length :=
      toNat_bytesType (by decide) hv
    rw [decodeValue_bytes (by omega), hst, if_pos (by omega)]
    rfl

/-! ## Whole records -/

theorem readSerials_put (sts : List UInt64) (rest : Bytes) :
    readSerials sts.length (sts.flatMap putVarint ++ rest) = some (sts, rest) := by
  induction sts with
  | nil => rfl
  | cons st sts ih =>
    rw [length_cons, readSerials, flatMap_cons, append_assoc,
      getVarint_putVarint _ _ (by simp)]
    simp only [drop_left, ih, Option.map_some]

theorem readBodies_put (h : ∀ v ∈ vals, v.Fits) :
    readBodies (vals.map Value.serialType) (vals.flatMap Value.body)
      = some (vals.map Value.stored) := by
  induction vals with
  | nil => rfl
  | cons v vals ih =>
    have hv : v.Fits := h v (by simp)
    rw [map_cons, readBodies, serialBodyLen_serialType hv]
    simp only [flatMap_cons, length_append, drop_left, take_left]
    rw [if_neg (by omega), ih (fun w hw => h w (by simp [hw])), decodeValue_serialType hv]
    rfl

/-- **What was encoded is decoded.** -/
theorem recordDecode_encode (h : ∀ v ∈ vals, v.Fits) (hlen : vals.length < 2 ^ 64) (max : Nat) :
    recordDecode (recordEncode vals) max = .ok ((vals.map Value.stored).take max, vals.length) := by
  have hn : (UInt64.ofNat vals.length).toNat = (vals.map Value.serialType).length := by
    rw [UInt64.toNat_ofNat', Nat.mod_eq_of_lt hlen, length_map]
  rw [recordDecode, recordEncode, append_assoc, getVarint_putVarint _ _ (by simp)]
  simp only [drop_left]
  rw [hn, ← flatMap_map, readSerials_put]
  simp only [readBodies_put h, length_map]

theorem decodeValue_fits {body : Bytes} (h : body.length < 2 ^ 31) :
    (decodeValue st body).Fits ∧ (decodeValue st body).stored = decodeValue st body := by
  simp only [decodeValue]
  split_ifs <;> first | exact ⟨trivial, rfl⟩ | exact ⟨h, rfl⟩

theorem serialBodyLen_lt (h : serialBodyLen st = some n) : n < 2 ^ 31 := by
  unfold serialBodyLen at h
  split at h
  all_goals first | (cases h; done) | (cases h; decide) | skip
  split at h
  · cases h
    assumption
  · cases h

theorem readBodies_fits {sts : List UInt64} : ∀ {b : Bytes} {vals : List Value},
    readBodies sts b = some vals →
      vals.length = sts.length ∧ ∀ v ∈ vals, v.Fits ∧ v.stored = v := by
  induction sts with
  | nil =>
    intro b vals h
    cases h
    simp
  | cons st sts ih =>
    intro b vals h
    rw [readBodies] at h
    cases hbl : serialBodyLen st with
    | none => simp [hbl] at h
    | some bl =>
      simp only [hbl] at h
      split at h
      · cases h
      · obtain ⟨rest, hrest, rfl⟩ := Option.map_eq_some_iff.mp h
        obtain ⟨hlen, hfits⟩ := ih hrest
        have hbody : (b.take bl).length < 2 ^ 31 :=
          lt_of_le_of_lt (length_take_le bl b) (serialBodyLen_lt hbl)
        refine ⟨by simp [hlen], fun v hv => ?_⟩
        rcases mem_cons.mp hv with rfl | hv
        · exact decodeValue_fits hbody
        · exact hfits v hv

section

variable {b : Bytes} {max : Nat} (h : recordDecode b max = .ok (vals, n))

include h

/-- A record that can be decoded has one list of values, of which a caller takes the front. -/
theorem recordDecode_ok :
    ∃ all : List Value, (∀ m, recordDecode b m = .ok (all.take m, n)) ∧ vals = all.take max ∧
      all.length = n ∧ ∀ v ∈ all, v.Fits ∧ v.stored = v := by
  unfold recordDecode at h ⊢
  split at h
  · cases h
  · split at h
    · cases h
    · split at h
      · cases h
      · next all hall =>
        cases h
        obtain ⟨hlen, hfits⟩ := readBodies_fits hall
        exact ⟨all, fun _ => rfl, rfl, hlen, hfits⟩

/-- **What was decoded can be encoded again**, and is then decoded to the same values. -/
theorem recordDecode_fits :
    vals.length = min max n ∧ ∀ v ∈ vals, v.Fits ∧ v.stored = v := by
  obtain ⟨all, -, rfl, hlen, hfits⟩ := recordDecode_ok h
  exact ⟨by rw [length_take, hlen], fun v hv => hfits v (mem_of_mem_take hv)⟩

/-- Where all columns were taken, any other number of them is a front of those. -/
theorem recordDecode_max (hmax : n ≤ max) (m : Nat) :
    recordDecode b m = .ok (vals.take m, n) := by
  obtain ⟨all, hdec, rfl, rfl, -⟩ := recordDecode_ok h
  rw [take_of_length_le hmax]
  exact hdec m

end

/-! ## Prefixes -/

theorem readSerials_take (sts : List UInt64) : ∀ {k : Nat}, k < (sts.flatMap putVarint).length →
    readSerials sts.length ((sts.flatMap putVarint).take k) = none := by
  induction sts with
  | nil => exact fun hk => absurd hk (Nat.not_lt_zero _)
  | cons st sts ih =>
    intro k hk
    rw [flatMap_cons, length_append] at hk
    rw [length_cons, readSerials, flatMap_cons]
    by_cases hcut : k < (putVarint st).length
    · rw [take_append_of_le_length hcut.le, getVarint_take st hcut]
    · rw [Nat.not_lt] at hcut
      rw [take_append, take_of_length_le hcut, getVarint_putVarint _ _ (by simp)]
      simp only [drop_left, ih (show k - (putVarint st).length < _ by omega), Option.map_none]

theorem readBodies_take (h : ∀ v ∈ vals, v.Fits) : ∀ {k : Nat},
    k < (vals.flatMap Value.body).length →
    readBodies (vals.map Value.serialType) ((vals.flatMap Value.body).take k) = none := by
  induction vals with
  | nil => exact fun hk => absurd hk (Nat.not_lt_zero _)
  | cons v vals ih =>
    intro k hk
    rw [flatMap_cons, length_append] at hk
    rw [map_cons, readBodies, serialBodyLen_serialType (h v mem_cons_self), flatMap_cons]
    simp only [length_take, length_append]
    by_cases hcut : k < v.body.length
    · rw [if_pos (by omega)]
    · rw [Nat.not_lt] at hcut
      rw [if_neg (by omega), take_append, take_of_length_le hcut, drop_left,
        ih (forall_mem_cons.mp h).2 (by omega), Option.map_none]

/-- A record that was cut off is corrupt, wherever it was cut. -/
theorem recordDecode_take (h : ∀ v ∈ vals, v.Fits) (hlen : vals.length < 2 ^ 64) {k : Nat}
    (hk : k < (recordEncode vals).length) (max : Nat) :
    recordDecode ((recordEncode vals).take k) max = .error .corrupt := by
  have hn : (UInt64.ofNat vals.length).toNat = (vals.map Value.serialType).length := by
    rw [UInt64.toNat_ofNat', Nat.mod_eq_of_lt hlen, length_map]
  have htypes : vals.flatMap (fun v => putVarint v.serialType) = (vals.map Value.serialType).flatMap putVarint :=
    (flatMap_map ..).symm
  rw [recordEncode, htypes, append_assoc] at hk ⊢
  rw [recordDecode]
  by_cases hcount : k < (putVarint (UInt64.ofNat vals.length)).length
  · rw [take_append_of_le_length hcount.le, getVarint_take _ hcount]
  rw [Nat.not_lt] at hcount
  rw [take_append, take_of_length_le hcount, getVarint_putVarint _ _ (by simp)]
  simp only [drop_left, hn]
  rw [length_append, length_append] at hk
  by_cases hcut : k - (putVarint (UInt64.ofNat vals.length)).length
      < ((vals.map Value.serialType).flatMap putVarint).length
  · rw [take_append_of_le_length hcut.le, readSerials_take _ hcut]
  · rw [Nat.not_lt] at hcut
    rw [take_append, take_of_length_le hcut, readSerials_put]
    simp only
    rw [readBodies_take h (by omega)]

/-- **The record codec.** What was encoded is decoded: the number of columns, and as many values as are
asked for, a composite value as a blob. Every strict prefix is corrupt. -/
theorem record_round_trip {vals : List Value} (h : ∀ v ∈ vals, v.Fits) (hlen : vals.length < 2 ^ 31) (max : Nat) :
    recordDecode (recordEncode vals) max = .ok ((vals.map Value.stored).take max, vals.length) ∧
    ∀ b, b <+: recordEncode vals → b ≠ recordEncode vals → recordDecode b max = .error .corrupt := by
  refine ⟨recordDecode_encode h (by omega) max, fun b hb hne => ?_⟩
  rw [List.prefix_iff_eq_take.mp hb]
  refine recordDecode_take h (by omega) (lt_of_le_of_ne hb.length_le fun heq => hne ?_) max
  exact hb.eq_of_length heq

/-- A row of all kinds of values, read up to its fifth column. -/
theorem record_round_trip_row :
    let row := [.null, .int (-129), .int 1, .real 0x7FF8000000000001, .text [104, 105], .composite [1, 0]]
    recordDecode (recordEncode row) 5 =
        .ok ([.null, .int (-129), .int 1, .real 0x7FF8000000000001, .text [104, 105]], 6) ∧
      recordDecode ((recordEncode row).take 18) 0 = .error .corrupt := by
  intro row
  have hfits : ∀ v ∈ row, v.Fits := by simp [row, Value.Fits]
  refine ⟨(record_round_trip hfits (by decide) 5).1, (record_round_trip hfits (by decide) 0).2 _ ?_ (by decide)⟩
  exact List.take_prefix 18 _

end Tdb
