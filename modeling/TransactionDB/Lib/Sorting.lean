import TransactionDB.Lib.Ranked

/-!
# Sorting — insertion sort, and what a sorting routine has to do

`insertionSort` puts each entry behind the last one in front of it that is not greater; the entries sorted so
far are held from the last to the first, as the loop visits them. Under a comparison that is a total preorder
the result is sorted, and entries of one rank stay in their order (`filter_insertionSort`).

A `Sorter` is a sorting routine of which only that is known that is known of any: it permutes, and sorts where
the comparison is a total preorder.
-/

namespace Sorting

open Ranked List

variable {α : Type*} {cmp : α → α → Ordering} {l : List α} {rank : α → Nat}

/-- An entry goes in front of the greater ones; `rev` has the last entry first. -/
def insertBack (cmp : α → α → Ordering) (v : α) : List α → List α
  | [] => [v]
  | a :: rev => if cmp a v = .gt then a :: insertBack cmp v rev else v :: a :: rev

def insertionSort (cmp : α → α → Ordering) (l : List α) : List α :=
  (l.foldl (fun rev v => insertBack cmp v rev) []).reverse

theorem insertBack_perm (v : α) : ∀ rev : List α, (insertBack cmp v rev).Perm (v :: rev)
  | [] => List.Perm.refl _
  | a :: rev => by
    rw [insertBack]
    split
    · exact ((insertBack_perm v rev).cons a).trans (List.Perm.swap v a rev)
    · exact List.Perm.refl _

theorem foldl_insertBack_perm : ∀ (l rev : List α),
    (l.foldl (fun rev v => insertBack cmp v rev) rev).Perm (l ++ rev)
  | [], _ => List.Perm.refl _
  | v :: l, rev =>
    (foldl_insertBack_perm l _).trans (((insertBack_perm v rev).append_left l).trans perm_middle)

theorem insertionSort_perm (l : List α) : (insertionSort cmp l).Perm l := by
  have h := @foldl_insertBack_perm α cmp l []
  rw [append_nil] at h
  exact (reverse_perm _).trans h

section Ranks

variable (hrank : IsRank cmp l rank)

include hrank

theorem insertBack_sorted {v : α} (hv : v ∈ l) : ∀ {rev : List α}, (∀ a ∈ rev, a ∈ l) →
    rev.Pairwise (fun a b => rank b ≤ rank a) →
    (insertBack cmp v rev).Pairwise fun a b => rank b ≤ rank a
  | [], _, _ => pairwise_singleton _ v
  | a :: rev, hmem, hsorted => by
    obtain ⟨hhead, htail⟩ := pairwise_cons.mp hsorted
    have ha : a ∈ l := hmem a mem_cons_self
    rw [insertBack]
    split
    · next hgt =>
      have hlt := (hrank.eq_gt ha hv).mp hgt
      refine pairwise_cons.mpr ⟨fun b hb => ?_,
        insertBack_sorted hv (forall_mem_cons.mp hmem).2 htail⟩
      rcases mem_cons.mp ((insertBack_perm v rev).subset hb) with rfl | hb
      · exact hlt.le
      · exact hhead b hb
    · next hle =>
      have hav := (hrank.ne_gt ha hv).mp hle
      refine pairwise_cons.mpr ⟨fun b hb => ?_, hsorted⟩
      rcases mem_cons.mp hb with rfl | hb
      · exact hav
      · exact (hhead b hb).trans hav

/-- An entry goes behind all of its rank. -/
theorem filter_insertBack (k : Nat) {v : α} (hv : v ∈ l) : ∀ {rev : List α}, (∀ a ∈ rev, a ∈ l) →
    (insertBack cmp v rev).filter (rank · = k) = (v :: rev).filter (rank · = k)
  | [], _ => rfl
  | a :: rev, hmem => by
    have ha : a ∈ l := hmem a mem_cons_self
    rw [insertBack]
    split
    · next hgt =>
      have hlt := (hrank.eq_gt ha hv).mp hgt
      have hrec := filter_insertBack k hv (forall_mem_cons.mp hmem).2
      by_cases hak : rank a = k
      · have hvk : rank v ≠ k := by omega
        simp [hak, hvk, hrec]
      · simp [filter_cons, hak, hrec]
    · rfl

theorem foldl_insertBack : ∀ {xs rev : List α}, (∀ a ∈ xs, a ∈ l) → (∀ a ∈ rev, a ∈ l) →
    rev.Pairwise (fun a b => rank b ≤ rank a) →
    (xs.foldl (fun rev v => insertBack cmp v rev) rev).Pairwise (fun a b => rank b ≤ rank a) ∧
      ∀ k, (xs.foldl (fun rev v => insertBack cmp v rev) rev).filter (rank · = k) =
        (xs.reverse ++ rev).filter (rank · = k)
  | [], _, _, _, hsorted => ⟨hsorted, fun _ => rfl⟩
  | v :: xs, rev, hxs, hrev, hsorted => by
    have hv : v ∈ l := hxs v mem_cons_self
    have hmem : ∀ a ∈ insertBack cmp v rev, a ∈ l := by
      intro a ha
      rcases mem_cons.mp ((insertBack_perm v rev).subset ha) with rfl | ha
      · exact hv
      · exact hrev a ha
    obtain ⟨hpair, hfilter⟩ := foldl_insertBack (forall_mem_cons.mp hxs).2 hmem
      (insertBack_sorted hrank hv hrev hsorted)
    refine ⟨hpair, fun k => ?_⟩
    rw [foldl_cons, hfilter k, filter_append, filter_insertBack hrank k hv hrev,
      reverse_cons, append_assoc, filter_append]
    rfl

/-- **Insertion sort sorts.** -/
theorem insertionSort_sorted : (insertionSort cmp l).Pairwise fun a b => rank a ≤ rank b := by
  rw [insertionSort, pairwise_reverse]
  exact (foldl_insertBack hrank (fun a ha => ha) (by simp) List.Pairwise.nil).1

/-- **Insertion sort is stable.** -/
theorem filter_insertionSort (k : Nat) :
    (insertionSort cmp l).filter (rank · = k) = l.filter (rank · = k) := by
  have h := (foldl_insertBack hrank (fun a ha => ha) (by simp) List.Pairwise.nil).2 k
  rw [insertionSort, filter_reverse, h, append_nil, filter_reverse, reverse_reverse]

/-- Entries of one rank stay in their order. -/
theorem insertionSort_stable {r : α → α → Prop} (h : l.Pairwise r) :
    (insertionSort cmp l).Pairwise fun a b => rank a = rank b → r a b := by
  have hpairs : ∀ s : List α, (∀ k, (s.filter (rank · = k)).Pairwise r) →
      s.Pairwise fun a b => rank a = rank b → r a b := by
    intro s
    induction s with
    | nil => exact fun _ => List.Pairwise.nil
    | cons a s ih =>
      intro hs
      refine pairwise_cons.mpr ⟨fun b hb hab => ?_, ih fun k => ?_⟩
      · have hcons := hs (rank a)
        rw [filter_cons_of_pos (by simp)] at hcons
        exact (pairwise_cons.mp hcons).1 b (mem_filter.mpr ⟨hb, by simp [hab]⟩)
      · exact (hs k).sublist ((sublist_cons_self a s).filter _)
  refine hpairs _ fun k => ?_
  rw [filter_insertionSort hrank]
  exact h.filter _

end Ranks

/-! ## Runs -/

/-- The list behind a run that has begun with `first`: what is the same as `first` belongs to it. -/
def runsFrom (same : α → α → Bool) (first : α) (run : List α) : List α → List (List α)
  | [] => [run]
  | y :: ys => if same first y then runsFrom same first (run ++ [y]) ys else run :: runsFrom same y [y] ys

/-- A list cut into runs: a run goes on as long as the entries are the same as its first. -/
def runs (same : α → α → Bool) : List α → List (List α)
  | [] => []
  | x :: xs => runsFrom same x [x] xs

theorem flatten_runsFrom (same : α → α → Bool) (first : α) (run ys : List α) :
    (runsFrom same first run ys).flatten = run ++ ys := by
  induction ys generalizing first run with
  | nil => simp [runsFrom]
  | cons y ys ih =>
    rw [runsFrom]
    split
    · rw [ih, append_assoc]
      rfl
    · rw [flatten_cons, ih]
      rfl

theorem flatten_runs (same : α → α → Bool) : ∀ l : List α, (runs same l).flatten = l
  | [] => rfl
  | x :: xs => flatten_runsFrom same x [x] xs

/-- In a sorted list each run has all the entries of its rank. -/
theorem eq_filter_of_mem_runsFrom {same : α → α → Bool} {first : α} {run ys part : List α}
    (hsame : ∀ a ∈ run ++ ys, ∀ b ∈ run ++ ys, same a b ↔ rank a = rank b)
    (hsorted : ys.Pairwise fun a b => rank a ≤ rank b) (hfirst : first ∈ run)
    (hrun : ∀ a ∈ run, rank a = rank first) (hle : ∀ a ∈ ys, rank first ≤ rank a)
    (hpart : part ∈ runsFrom same first run ys) :
    ∃ x ∈ run ++ ys, part = (run ++ ys).filter (rank · = rank x) := by
  have hall : ∀ {run : List α}, (∀ a ∈ run, rank a = rank first) →
      run.filter (rank · = rank first) = run := fun h =>
    filter_eq_self.mpr fun a ha => by simpa using h a ha
  induction ys generalizing first run with
  | nil =>
    rw [runsFrom, mem_singleton] at hpart
    refine ⟨first, mem_append_left _ hfirst, ?_⟩
    rw [append_nil, hall hrun, hpart]
  | cons y ys ih =>
    obtain ⟨hhead, htail⟩ := pairwise_cons.mp hsorted
    have hrank := hsame first (mem_append_left _ hfirst) y (by simp)
    rw [runsFrom] at hpart
    split at hpart
    · next heq =>
      have hy := hrank.mp heq
      have hshift : run ++ [y] ++ ys = run ++ y :: ys := by simp
      rw [← hshift] at hsame ⊢
      refine ih hsame htail (mem_append_left _ hfirst) ?_
        (forall_mem_cons.mp hle).2 hpart hall
      intro a ha
      rcases mem_append.mp ha with ha | ha
      · exact hrun a ha
      · rw [mem_singleton.mp ha, hy]
    · next hne =>
      have hlt : rank first < rank y := by
        have := hle y mem_cons_self
        have hdiff : rank first ≠ rank y := fun h => hne (hrank.mpr h)
        omega
      have hbehind : ∀ a ∈ y :: ys, rank y ≤ rank a := by
        intro a ha
        rcases mem_cons.mp ha with rfl | ha
        · exact Nat.le_refl _
        · exact hhead a ha
      rcases mem_cons.mp hpart with rfl | hpart
      · -- the run that ends here: behind it there are greater ranks only
        refine ⟨first, mem_append_left _ hfirst, ?_⟩
        have hnone : (y :: ys).filter (rank · = rank first) = [] := by
          refine filter_eq_nil_iff.mpr fun a ha => ?_
          have := hbehind a ha
          simp only [decide_eq_true_eq]
          omega
        rw [filter_append, hall hrun, hnone, append_nil]
      · obtain ⟨x, hx, hxpart⟩ := @ih y [y]
          (fun a ha b hb => hsame a (mem_append_right _ ha) b (mem_append_right _ hb)) htail
          mem_cons_self (by simp) hhead hpart (fun h =>
            filter_eq_self.mpr fun a ha => by simpa using h a ha)
        refine ⟨x, mem_append_right _ hx, ?_⟩
        have hnone : run.filter (rank · = rank x) = [] := by
          refine filter_eq_nil_iff.mpr fun a ha => ?_
          have := hbehind x hx
          have := hrun a ha
          simp only [decide_eq_true_eq]
          omega
        rw [filter_append, hnone, nil_append]
        exact hxpart

/-- **The run of an entry of a sorted list is all the entries of its rank.** -/
theorem eq_filter_of_mem_runs {same : α → α → Bool} (hsame : ∀ a ∈ l, ∀ b ∈ l, same a b ↔ rank a = rank b)
    (hsorted : l.Pairwise fun a b => rank a ≤ rank b) {part : List α} (hpart : part ∈ runs same l) {x : α}
    (hx : x ∈ part) : part = l.filter (rank · = rank x) := by
  cases l with
  | nil => cases hpart
  | cons y ys =>
    obtain ⟨hhead, htail⟩ := pairwise_cons.mp hsorted
    obtain ⟨z, -, rfl⟩ := eq_filter_of_mem_runsFrom hsame htail mem_cons_self (by simp) hhead hpart
    have hxz : rank x = rank z := by simpa using (mem_filter.mp hx).2
    rw [hxz]
    rfl

/-- A sorting routine. -/
structure Sorter where
  sort : {α : Type} → (α → α → Ordering) → List α → List α
  perm : ∀ {α : Type} (cmp : α → α → Ordering) (l : List α), (sort cmp l).Perm l
  sorted : ∀ {α : Type} (cmp : α → α → Ordering) [Std.OrientedCmp cmp] (l : List α), TotalOn cmp l →
    (sort cmp l).Pairwise fun a b => cmp a b ≠ .gt

/-- Insertion sort is one. -/
def insertionSorter : Sorter where
  sort := insertionSort
  perm _ := insertionSort_perm
  sorted cmp _ l htotal := by
    obtain ⟨rank, hrank⟩ := exists_rank htotal
    refine (insertionSort_sorted hrank).imp_of_mem fun {a b} ha hb hab => ?_
    exact (hrank.ne_gt ((insertionSort_perm l).subset ha) ((insertionSort_perm l).subset hb)).mpr hab

end Sorting
