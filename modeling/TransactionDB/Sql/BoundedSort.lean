import TransactionDB.Lib.BinaryHeap
import TransactionDB.Sql.Eval
import TransactionDB.Sql.SortKeys

/-!
# TransactionDB — the Sort operator

`heap_sift_up`, `heap_sift_down`, `sort_materialize` and `sort_next` of `src/sql/tdb_exec_stream.inc`. The
operator reads all rows of its child into a max-heap by their keys. With a bound, a row that comes when the
heap is full takes the place of the root if its key is smaller, and is dropped otherwise. The heap is then
sorted in place and its rows are returned from the first on.

The bound is of 64 bits and is compared with the size of the heap as an `int`; a bound from 2³¹ on is never
reached (`capSize`).
-/

namespace Tdb.Sql

open BinaryHeap Ranked List

/-- `sortent`. -/
structure SortEnt where
  row : Row
  key : List Value

/-- The heap of an `OP_SORT`. -/
structure SortOp where
  heap : Nat → SortEnt
  nheap : Nat

/-- `sortkey_cmp` of two entries. -/
def entCmp (desc : List Bool) (a b : SortEnt) : Ordering := sortkeyCmp desc a.key b.key

/-- `heap_sift_up`. -/
def heapSiftUp (desc : List Bool) (op : SortOp) (i : Nat) : SortOp :=
  { op with heap := siftUp (entCmp desc) op.heap i }

/-- `heap_sift_down`. -/
def heapSiftDown (desc : List Bool) (op : SortOp) (i : Nat) : SortOp :=
  { op with heap := siftDown (entCmp desc) op.heap op.nheap i }

/-- One row of the child, with its key. -/
def sortTake (desc : List Bool) (capN : Int64) (op : SortOp) (e : SortEnt) : SortOp :=
  if 0 ≤ capN.toInt ∧ (op.nheap : Int) = capN.toInt32.toInt then
    if capN = 0 ∨ sortkeyCmp desc e.key (op.heap 0).key ≠ .lt then op
    else heapSiftDown desc { op with heap := Function.update op.heap 0 e } 0
  else
    heapSiftUp desc ⟨Function.update op.heap op.nheap e, op.nheap + 1⟩ op.nheap

/-- `sort_materialize`. -/
def sortMaterialize (desc : List Bool) (capN : Int64) (ents : List SortEnt) : SortOp :=
  let op := ents.foldl (sortTake desc capN) ⟨fun _ => ⟨[], []⟩, 0⟩
  { op with heap := heapsort (entCmp desc) op.heap op.nheap }

/-- The keys of ORDER BY, evaluated on a row. -/
def sortEnt (ev : Row → Expr → Value) (okeys : List Expr) (r : Row) : SortEnt := ⟨r, okeys.map (ev r)⟩

/-- The rows that `sort_next` returns. -/
def sortRows (ev : Row → Expr → Value) (okeys : List Expr) (desc : List Bool) (capN : Int64)
    (rows : List Row) : List Row :=
  let op := sortMaterialize desc capN (rows.map (sortEnt ev okeys))
  (entries op.heap op.nheap).map SortEnt.row

/-- How many of `n` rows are kept. -/
def capSize (capN : Int64) (n : Nat) : Nat :=
  if 0 ≤ capN.toInt ∧ capN.toInt < 2 ^ 31 then min capN.toInt.toNat n else n

theorem toInt32_of_lt {x : Int64} (h0 : 0 ≤ x.toInt) (h : x.toInt < 2 ^ 31) : x.toInt32.toInt = x.toInt := by
  rw [Int64.toInt_toInt32, Int.bmod_def]
  split <;> omega

theorem toInt32_neg {x : Int64} (h : 2 ^ 31 ≤ x.toInt) (hlt : x.toInt < 2 ^ 32) : x.toInt32.toInt < 0 := by
  rw [Int64.toInt_toInt32, Int.bmod_def]
  split <;> omega

section

variable {desc : List Bool} {capN : Int64} {ents : List SortEnt} {rank : SortEnt → Nat}

/-- **The heap keeps the rows with the least keys.** -/
theorem sortTake_kept (hcap : capN.toInt < 2 ^ 32) {all : List SortEnt} (hrank : IsRank (entCmp desc) all rank) :
    ∀ {ents : List SortEnt}, (∀ e ∈ ents, e ∈ all) →
    let op := ents.foldl (sortTake desc capN) ⟨fun _ => ⟨[], []⟩, 0⟩
    Kept rank ents op.heap op.nheap ∧ op.nheap = capSize capN ents.length := by
  intro ents
  induction ents using List.reverseRecOn with
  | nil =>
    intro _
    exact ⟨⟨fun c _ hc => absurd hc (Nat.not_lt_zero c), [], List.Perm.refl _, by simp⟩, by simp [capSize]⟩
  | append_singleton ents e ih =>
    intro hall
    obtain ⟨hkept, hsize⟩ := ih (forall_mem_append.mp hall).1
    rw [foldl_append, foldl_cons, foldl_nil]
    generalize ents.foldl (sortTake desc capN) ⟨fun _ => ⟨[], []⟩, 0⟩ = op at hkept hsize ⊢
    have hmem : ∀ i < op.nheap, op.heap i ∈ all := fun i hi =>
      hall _ (mem_append_left _ (hkept.mem i hi))
    have hlen : (ents ++ [e]).length = ents.length + 1 := by simp
    by_cases hfull : 0 ≤ capN.toInt ∧ (op.nheap : Int) = capN.toInt32.toInt
    · -- a heap as large as the bound
      have hlt : capN.toInt < 2 ^ 31 := by
        by_contra hge
        have := toInt32_neg (by omega) hcap
        omega
      rw [toInt32_of_lt hfull.1 hlt] at hfull
      have hstay : op.nheap = capSize capN (ents ++ [e]).length := by
        rw [hsize, capSize, capSize, if_pos ⟨hfull.1, hlt⟩, if_pos ⟨hfull.1, hlt⟩, hlen]
        rw [capSize, if_pos ⟨hfull.1, hlt⟩] at hsize
        omega
      rw [sortTake, if_pos (by rw [toInt32_of_lt hfull.1 hlt]; exact hfull)]
      by_cases hskip : capN = 0 ∨ sortkeyCmp desc e.key (op.heap 0).key ≠ .lt
      · rw [if_pos hskip]
        refine ⟨hkept.skip fun i hi => ?_, hstay⟩
        rcases hskip with rfl | hge
        · have h0 : (0 : Int64).toInt = 0 := rfl
          omega
        · have hroot : rank (op.heap 0) ≤ rank e :=
            (hrank.ne_lt (hall e (by simp)) (hmem 0 (by omega))).mp hge
          exact (hkept.heap.le_root i hi).trans hroot
      · rw [if_neg hskip]
        rw [not_or, not_not] at hskip
        have hpos : op.nheap ≠ 0 := by
          intro h0
          refine hskip.1 (Int64.toInt_inj.mp ?_)
          have hz : (0 : Int64).toInt = 0 := rfl
          omega
        obtain ⟨n, hn⟩ := Nat.exists_eq_succ_of_ne_zero hpos
        refine ⟨?_, hstay⟩
        have hlt' := (hrank.eq_lt (hall e (by simp)) (hmem 0 (by omega))).mp hskip.2
        simp only [heapSiftDown, hn] at hkept ⊢
        exact hkept.replace hrank hall hlt'
    · have hall' : op.nheap = ents.length ∧ ents.length + 1 = capSize capN (ents ++ [e]).length := by
        rw [hlen]
        rw [capSize] at hsize ⊢
        split at hsize
        · next hb =>
          rw [toInt32_of_lt hb.1 hb.2] at hfull
          rw [if_pos hb]
          omega
        · next hb =>
          rw [if_neg hb]
          exact ⟨hsize, rfl⟩
      rw [sortTake, if_neg hfull]
      refine ⟨hkept.push hrank hall hall'.1, ?_⟩
      rw [← hall'.2, ← hall'.1]
      rfl

/-- The entries in the end: sorted, and none of those left out is smaller. -/
theorem sortMaterialize_spec (hcap : capN.toInt < 2 ^ 32) (hrank : IsRank (entCmp desc) ents rank) :
    let op := sortMaterialize desc capN ents
    op.nheap = capSize capN ents.length ∧
      (entries op.heap op.nheap).Pairwise (fun a b => rank a ≤ rank b) ∧
      ∃ out, (entries op.heap op.nheap ++ out).Perm ents ∧
        ∀ e ∈ entries op.heap op.nheap, ∀ o ∈ out, rank e ≤ rank o := by
  obtain ⟨hkept, hsize⟩ := sortTake_kept hcap hrank (fun e he => he)
  simp only [sortMaterialize]
  generalize ents.foldl (sortTake desc capN) ⟨fun _ => ⟨[], []⟩, 0⟩ = op at hkept hsize ⊢
  obtain ⟨out, hperm, hout⟩ := hkept.split
  have hheap := entries_heapsort (entCmp desc) op.nheap op.heap (le_refl op.nheap)
  refine ⟨hsize, heapsort_sorted hrank hkept.mem hkept.heap, out, (hheap.append_right out).trans hperm, ?_⟩
  intro e he o ho
  obtain ⟨i, hi, rfl⟩ := mem_entries.mp (hheap.subset he)
  exact hout o ho i hi

end

/-- The rows that the Sort operator returns, by what ORDER BY asks of them: they are sorted, and with the
rows that are left out, none of which is smaller, they are the rows of the child. -/
structure SortedFirst (cmp : Row → Row → Ordering) (size : Nat) (rows out : List Row) : Prop where
  sorted : out.Pairwise fun a b => cmp a b ≠ .gt
  length : out.length = size
  least : ∃ left : List Row, (out ++ left).Perm rows ∧ ∀ a ∈ out, ∀ b ∈ left, cmp b a ≠ .lt

/-- The comparison of two rows by their keys. -/
def rowCmp (ev : Row → Expr → Value) (okeys : List Expr) (desc : List Bool) (a b : Row) : Ordering :=
  sortkeyCmp desc (okeys.map (ev a)) (okeys.map (ev b))

instance (ev : Row → Expr → Value) (okeys : List Expr) (desc : List Bool) :
    Std.OrientedCmp (rowCmp ev okeys desc) where
  eq_swap := keyCmp_swap desc _ _

section

variable {ev : Row → Expr → Value} {okeys : List Expr} {desc : List Bool} {rows : List Row}
  (hdesc : desc.length = okeys.length)
  (h : TotalOn (valueCompare · · .binary) (rows.flatMap fun r => okeys.map (ev r)))

include hdesc h

theorem totalOn_rowKeys :
    TotalOn (keyCmp desc) (rows.map fun r => okeys.map (ev r)) := by
  refine totalOn_keys (by rwa [← flatMap_def]) fun k hk => ?_
  obtain ⟨r, -, rfl⟩ := mem_map.mp hk
  rw [length_map, hdesc]

theorem totalOn_rowCmp :
    TotalOn (rowCmp ev okeys desc) rows := fun _ ha _ hb _ hc =>
  totalOn_rowKeys hdesc h _ (mem_map_of_mem ha) _ (mem_map_of_mem hb) _ (mem_map_of_mem hc)

end

theorem sortRows_first {ev : Row → Expr → Value} {okeys : List Expr} {desc : List Bool} {capN : Int64}
    {rows : List Row} (hdesc : desc.length = okeys.length) (hcap : capN.toInt < 2 ^ 32)
    (h : TotalOn (valueCompare · · .binary) (rows.flatMap fun r => okeys.map (ev r))) :
    SortedFirst (rowCmp ev okeys desc) (capSize capN rows.length) rows
      (sortRows ev okeys desc capN rows) := by
  obtain ⟨krank, hkrank⟩ := exists_rank (totalOn_rowKeys hdesc h)
  have hrank : IsRank (entCmp desc) (rows.map (sortEnt ev okeys)) fun e => krank e.key := by
    intro a ha b hb
    obtain ⟨r, hr, rfl⟩ := mem_map.mp ha
    obtain ⟨s, hs, rfl⟩ := mem_map.mp hb
    exact hkrank _ (mem_map_of_mem hr) _ (mem_map_of_mem hs)
  obtain ⟨hsize, hsorted, out, hall, hout⟩ := sortMaterialize_spec hcap hrank
  rw [length_map] at hsize
  have hrows : (rows.map (sortEnt ev okeys)).map SortEnt.row = rows := by
    rw [map_map]
    exact map_id rows
  unfold sortRows
  generalize sortMaterialize desc capN (rows.map (sortEnt ev okeys)) = op at hsize hsorted hall hout ⊢
  -- each entry has the key of its row
  have hcmp : ∀ a ∈ rows.map (sortEnt ev okeys), ∀ b ∈ rows.map (sortEnt ev okeys),
      rowCmp ev okeys desc a.row b.row = entCmp desc a b := by
    intro a ha b hb
    obtain ⟨r, -, rfl⟩ := mem_map.mp ha
    obtain ⟨s, -, rfl⟩ := mem_map.mp hb
    rfl
  have hkeep : ∀ e ∈ entries op.heap op.nheap, e ∈ rows.map (sortEnt ev okeys) := fun e he =>
    hall.subset (mem_append_left _ he)
  have hleft : ∀ e ∈ out, e ∈ rows.map (sortEnt ev okeys) := fun e he =>
    hall.subset (mem_append_right _ he)
  constructor
  · rw [pairwise_map]
    refine hsorted.imp_of_mem fun {a b} ha hb hab => ?_
    rw [hcmp a (hkeep a ha) b (hkeep b hb)]
    exact (hrank.ne_gt (hkeep a ha) (hkeep b hb)).mpr hab
  · rw [length_map, entries, length_map, length_range]
    exact hsize
  · refine ⟨out.map SortEnt.row, ?_, fun a ha b hb => ?_⟩
    · have hmap := hall.map SortEnt.row
      rwa [map_append, hrows] at hmap
    · obtain ⟨x, hx, rfl⟩ := mem_map.mp ha
      obtain ⟨y, hy, rfl⟩ := mem_map.mp hb
      rw [hcmp y (hleft y hy) x (hkeep x hx)]
      exact (hrank.ne_lt (hleft y hy) (hkeep x hx)).mpr (hout x hx y hy)

/-- The Sort operator returns the rows with the least keys, as many as its bound allows, in the order of
their keys. -/
theorem bounded_sort_correct {ev : Row → Expr → Value} {okeys : List Expr} {desc : List Bool}
    {capN : Int64} {rows : List Row} (hdesc : desc.length = okeys.length)
    (hcap : capN = -1 ∨ 0 ≤ capN.toInt ∧ capN.toInt < 2 ^ 31)
    (h : TotalOn (valueCompare · · .binary) (rows.flatMap fun r => okeys.map (ev r))) :
    SortedFirst (rowCmp ev okeys desc)
      (if capN = -1 then rows.length else min capN.toInt.toNat rows.length) rows
      (sortRows ev okeys desc capN rows) := by
  have hsize : (if capN = -1 then rows.length else min capN.toInt.toNat rows.length) =
      capSize capN rows.length := by
    rcases hcap with rfl | hcap
    · rfl
    · have hne : capN ≠ -1 := by
        rintro rfl
        exact absurd hcap.1 (by decide)
      rw [if_neg hne, capSize, if_pos hcap]
  rw [hsize]
  refine sortRows_first hdesc ?_ h
  rcases hcap with rfl | hcap
  · decide
  · omega

/-- The value of the first column, whatever the expression. -/
def firstColumn (r : Row) (_ : Expr) : Value := r.headD .null

/-- The two smallest of three rows. -/
theorem bounded_sort_correct_two :
    sortRows firstColumn [.star] [false] 2 [[.int 3], [.int 1], [.int 2]] = [[.int 1], [.int 2]] ∧
      SortedFirst (rowCmp firstColumn [.star] [false]) 2 [[.int 3], [.int 1], [.int 2]]
        (sortRows firstColumn [.star] [false] 2 [[.int 3], [.int 1], [.int 2]]) := by
  have htotal : TotalOn (valueCompare · · .binary)
      ([[.int 3], [.int 1], [.int 2]].flatMap fun r => [Expr.star].map (firstColumn r)) := by
    unfold TotalOn MixedOrder.TransAt
    decide +kernel
  refine ⟨by decide +kernel, ?_⟩
  exact @bounded_sort_correct firstColumn [.star] [false] 2 _ rfl (Or.inr (by decide +kernel)) htotal

end Tdb.Sql
