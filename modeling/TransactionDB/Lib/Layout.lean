import Mathlib.Data.List.Basic
import Mathlib.Tactic

/-!
# Layout — slices and overwrites of lists with a default element

A file is a list of bytes that reads as an infinite string of a default element past its
end; a write past the end fills the gap with that element. This module owns the geometry
of such lists, over any type:

* `slice` / `splice` — read, respectively overwrite, a window that lies inside the list;
* `readPad` / `writePad` — the same windows, padded where they leave the list;
* the pointwise law `getD_writePad`, from which every
  read-after-write law follows by comparing elements;
* the *append* laws, for lists built as a concatenation of segments and read at a
  segment's start.
-/

namespace Layout

open List

variable {α : Type*}

variable {ys xs : List α} {off n : Nat}

/-! ## Windows inside the list -/

/-- The `n` elements of `xs` from `off` on (fewer at the end of the list). -/
def slice (xs : List α) (off n : Nat) : List α := (xs.drop off).take n

/-- `xs` with `ys` written over the window that starts at `off`. -/
def splice (xs : List α) (off : Nat) (ys : List α) : List α :=
  xs.take off ++ ys ++ xs.drop (off + ys.length)

theorem length_slice (xs : List α) (off n : Nat) :
    (slice xs off n).length = min n (xs.length - off) := by
  simp [slice]

theorem length_splice (h : off + ys.length ≤ xs.length) :
    (splice xs off ys).length = xs.length := by
  simp only [splice, length_append, length_take, length_drop]
  omega

theorem getElem?_slice (xs : List α) (off n i : Nat) :
    (slice xs off n)[i]? = if i < n then xs[off + i]? else none := by
  rw [slice, getElem?_take]
  split <;> simp [getElem?_drop]

theorem getElem?_splice (h : off ≤ xs.length) (i : Nat) :
    (splice xs off ys)[i]? =
      if i < off then xs[i]? else if i < off + ys.length then ys[i - off]? else xs[i]? := by
  have htake : (xs.take off).length = off := by simp [h]
  unfold splice
  by_cases h1 : i < off
  · rw [if_pos h1, append_assoc, getElem?_append_left (by omega),
      getElem?_take, if_pos h1]
  · rw [if_neg h1]
    by_cases h2 : i < off + ys.length
    · rw [if_pos h2, getElem?_append_left (by simp; omega),
        getElem?_append_right (by omega), htake]
    · rw [if_neg h2, getElem?_append_right (by simp; omega), getElem?_drop]
      congr 1
      simp only [length_append, htake]
      omega

/-- A window read where it was just written. -/
theorem slice_splice_self (h : off + ys.length ≤ xs.length) :
    slice (splice xs off ys) off ys.length = ys := by
  apply ext_getElem?
  intro i
  rw [getElem?_slice, getElem?_splice (by omega)]
  by_cases hi : i < ys.length
  · rw [if_pos hi, if_neg (by omega), if_pos (by omega), Nat.add_sub_cancel_left]
  · rw [if_neg hi, getElem?_eq_none (by omega)]

/-- A window disjoint from the written one is not disturbed. -/
theorem slice_splice_of_disjoint {off' : Nat} (h : off + ys.length ≤ xs.length)
    (hd : off' + n ≤ off ∨ off + ys.length ≤ off') :
    slice (splice xs off ys) off' n = slice xs off' n := by
  apply ext_getElem?
  intro i
  rw [getElem?_slice, getElem?_slice, getElem?_splice (by omega)]
  by_cases hi : i < n
  · simp only [if_pos hi]
    rcases hd with hd | hd
    · rw [if_pos (by omega)]
    · rw [if_neg (by omega), if_neg (by omega)]
  · simp only [if_neg hi]

/-- A window read inside a longer one that is known. -/
theorem slice_slice (xs : List α) (off n off' n' : Nat) (h : off' + n' ≤ n) :
    slice (slice xs off n) off' n' = slice xs (off + off') n' := by
  apply ext_getElem?
  intro i
  simp only [getElem?_slice]
  by_cases hi : i < n'
  · rw [if_pos hi, if_pos hi, if_pos (by omega), Nat.add_assoc]
  · rw [if_neg hi, if_neg hi]

@[simp] theorem slice_zero_length (xs : List α) : slice xs 0 xs.length = xs := by
  simp [slice]

theorem slice_append_left (h : off + n ≤ xs.length) :
    slice (xs ++ ys) off n = slice xs off n := by
  apply ext_getElem?
  intro i
  simp only [getElem?_slice]
  by_cases hi : i < n
  · rw [if_pos hi, if_pos hi, getElem?_append_left (by omega)]
  · rw [if_neg hi, if_neg hi]

theorem slice_append_right (h : xs.length ≤ off) :
    slice (xs ++ ys) off n = slice ys (off - xs.length) n := by
  unfold slice
  rw [drop_append, drop_eq_nil_of_le h, nil_append]

/-- The segment that starts where `xs` ends. -/
theorem slice_append_mid (xs ys zs : List α) :
    slice (xs ++ (ys ++ zs)) xs.length ys.length = ys := by
  rw [slice_append_right (le_refl _), Nat.sub_self, slice_append_left (by omega),
    slice_zero_length]

/-! ## Windows padded with a default element -/

variable (z : α)

/-- `n` elements from `off` on, reading `z` past the end. -/
def readPad (xs : List α) (off n : Nat) : List α :=
  slice xs off n ++ List.replicate (n - (xs.length - off)) z

/-- `xs` after `ys` was written at `off`; a gap before `off` is filled with `z`, and
writing nothing changes nothing. -/
def writePad (xs : List α) (off : Nat) (ys : List α) : List α :=
  if ys.isEmpty then xs
  else splice (xs ++ List.replicate (off - xs.length) z) off ys

@[simp] theorem length_readPad (xs : List α) (off n : Nat) :
    (readPad z xs off n).length = n := by
  simp only [readPad, length_append, length_slice, length_replicate]
  omega

theorem readPad_nil (off n : Nat) : readPad z [] off n = List.replicate n z := by
  simp [readPad, slice]

/-- Inside the list the padded read is the plain one. -/
theorem readPad_eq_slice (h : off + n ≤ xs.length) :
    readPad z xs off n = slice xs off n := by
  rw [readPad, show n - (xs.length - off) = 0 from by omega]
  simp

theorem getElem?_readPad (xs : List α) (off n i : Nat) :
    (readPad z xs off n)[i]? = if i < n then some (xs.getD (off + i) z) else none := by
  by_cases hi : i < n
  · rw [if_pos hi, readPad]
    by_cases hx : off + i < xs.length
    · rw [getElem?_append_left (by rw [length_slice]; omega), getElem?_slice, if_pos hi,
        getD_eq_getElem?_getD, getElem?_eq_getElem hx]
      rfl
    · rw [getElem?_append_right (by rw [length_slice]; omega),
        getElem?_replicate, if_pos (by rw [length_slice]; omega),
        getD_eq_getElem?_getD, getElem?_eq_none (by omega)]
      rfl
  · rw [if_neg hi, getElem?_eq_none (by simp; omega)]

theorem getD_pad (xs : List α) (n i : Nat) :
    (xs ++ List.replicate n z).getD i z = xs.getD i z := by
  simp only [getD_eq_getElem?_getD]
  by_cases hi : i < xs.length
  · rw [getElem?_append_left hi]
  · rw [getElem?_append_right (by omega), getElem?_replicate,
      getElem?_eq_none (by omega)]
    split <;> rfl

/-- What a list reads after a write, element by element. -/
theorem getD_writePad (xs ys : List α) (off i : Nat) :
    (writePad z xs off ys).getD i z =
      if off ≤ i ∧ i < off + ys.length then ys.getD (i - off) z else xs.getD i z := by
  unfold writePad
  by_cases hy : ys.isEmpty
  · have hnil : ys = [] := isEmpty_iff.mp hy
    rw [if_pos hy, if_neg (by rw [hnil, length_nil]; omega)]
  · rw [if_neg hy, getD_eq_getElem?_getD, getElem?_splice (by simp; omega)]
    by_cases h1 : i < off
    · rw [if_pos h1, if_neg (by omega), ← getD_eq_getElem?_getD, getD_pad]
    · by_cases h2 : i < off + ys.length
      · rw [if_neg h1, if_pos h2, if_pos (by omega), ← getD_eq_getElem?_getD]
      · rw [if_neg h1, if_neg h2, if_neg (by omega), ← getD_eq_getElem?_getD, getD_pad]

theorem length_writePad (h : ys ≠ []) :
    (writePad z xs off ys).length = max xs.length (off + ys.length) := by
  rw [writePad, if_neg (by simpa using h)]
  simp only [splice, length_append, length_take, length_drop,
    length_replicate]
  omega

/-- A write that starts inside the list, element by element. -/
theorem getElem?_writePad (h : off ≤ xs.length) (i : Nat) :
    (writePad z xs off ys)[i]? =
      if i < off then xs[i]? else if i < off + ys.length then ys[i - off]? else xs[i]? := by
  unfold writePad
  by_cases hy : ys.isEmpty
  · have hnil : ys = [] := isEmpty_iff.mp hy
    rw [if_pos hy, hnil]
    split
    · rfl
    · rw [if_neg (by rw [length_nil]; omega)]
  · rw [if_neg hy, show off - xs.length = 0 from by omega, replicate_zero,
      append_nil, getElem?_splice h]

/-- Two padded windows agree when they agree element by element. -/
theorem readPad_congr {xs' : List α} {off' : Nat}
    (h : ∀ i, i < n → xs.getD (off + i) z = xs'.getD (off' + i) z) :
    readPad z xs off n = readPad z xs' off' n := by
  apply ext_getElem?
  intro i
  rw [getElem?_readPad, getElem?_readPad]
  by_cases hi : i < n
  · rw [if_pos hi, if_pos hi, h i hi]
  · rw [if_neg hi, if_neg hi]

theorem eq_iff_getD :
    xs = ys ↔ xs.length = ys.length ∧ ∀ i, xs.getD i z = ys.getD i z := by
  refine ⟨fun h => by simp [h], fun ⟨hlen, hget⟩ => ?_⟩
  apply ext_getElem hlen
  intro i hx hy
  simpa [getD_eq_getElem?_getD, hx, hy] using hget i

/-- A window read where it was just written. -/
theorem readPad_writePad_self (xs ys : List α) (off : Nat) :
    readPad z (writePad z xs off ys) off ys.length = ys := by
  apply ext_getElem?
  intro i
  rw [getElem?_readPad]
  by_cases hi : i < ys.length
  · rw [if_pos hi, getD_writePad, if_pos (by omega), Nat.add_sub_cancel_left,
      getD_eq_getElem?_getD, getElem?_eq_getElem hi]
    rfl
  · rw [if_neg hi, getElem?_eq_none (by omega)]

/-- A window disjoint from the written one is not disturbed. -/
theorem readPad_writePad_of_disjoint {off' : Nat} (hd : off' + n ≤ off ∨ off + ys.length ≤ off') :
    readPad z (writePad z xs off ys) off' n = readPad z xs off' n := by
  apply readPad_congr
  intro i hi
  rw [getD_writePad, if_neg (by omega)]

/-- Writing at the end of a segment overwrites the start of what follows it. -/
theorem writePad_append (xs ys tail : List α) :
    writePad z (xs ++ tail) xs.length ys = xs ++ (ys ++ tail.drop ys.length) := by
  unfold writePad
  by_cases hy : ys.isEmpty
  · rw [if_pos hy, isEmpty_iff.mp hy]
    simp
  · rw [if_neg hy, show xs.length - (xs ++ tail).length = 0 from by simp]
    simp [splice, drop_append]

theorem writePad_nil (ys : List α) : writePad z [] 0 ys = ys := by
  simpa using writePad_append z [] ys []

end Layout
