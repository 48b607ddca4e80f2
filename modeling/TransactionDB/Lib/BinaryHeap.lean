import TransactionDB.Lib.Ranked

/-!
# BinaryHeap — a max-heap in an array, and heapsort

The array is a function of positions; the heap is at the positions below its size, with the children of `i`
at `2 i + 1` and `2 i + 2`. An entry moves by swaps with its parent (`siftUp`) or with the larger of its
children (`siftDown`).

A swap only exchanges entries, so each operation permutes what is in the array (`entries`). The comparison
has to be that of ranks on the entries of the heap; the order is then stated by ranks: `HeapOrd` for a heap,
`UpOrd` and `DownOrd` for a heap that is in order but for the moving entry.

* `heapOrd_siftUp`, `heapOrd_siftDown`: the sifts end in a heap.
* `heapsort_sorted`: taking the root away again and again leaves the array sorted.
-/

namespace BinaryHeap

open Ranked List

variable {α : Type*}

/-! ## The operations -/

/-- Two entries are exchanged. -/
def swap (h : Nat → α) (i j : Nat) : Nat → α := h ∘ Equiv.swap i j

/-- The entry at `i` moves up while it is greater than its parent. -/
def siftUp (cmp : α → α → Ordering) (h : Nat → α) (i : Nat) : Nat → α :=
  if 0 < i then
    if cmp (h i) (h ((i - 1) / 2)) = .gt then siftUp cmp (swap h i ((i - 1) / 2)) ((i - 1) / 2) else h
  else h
termination_by i

/-- Whichever of `m` and `c` holds the greater entry, if `c` is in the heap. -/
def larger (cmp : α → α → Ordering) (h : Nat → α) (n m c : Nat) : Nat :=
  if c < n ∧ cmp (h c) (h m) = .gt then c else m

theorem larger_eq (cmp : α → α → Ordering) (h : Nat → α) (n m c : Nat) :
    larger cmp h n m c = m ∨ larger cmp h n m c = c ∧ c < n := by
  unfold larger
  split
  · next hc => exact Or.inr ⟨rfl, hc.1⟩
  · exact Or.inl rfl

/-- The greatest of an entry and its children. -/
def largest (cmp : α → α → Ordering) (h : Nat → α) (n i : Nat) : Nat :=
  larger cmp h n (larger cmp h n i (2 * i + 1)) (2 * i + 2)

theorem largest_cases (cmp : α → α → Ordering) (h : Nat → α) (n i : Nat) :
    largest cmp h n i = i ∨
      (largest cmp h n i = 2 * i + 1 ∨ largest cmp h n i = 2 * i + 2) ∧ largest cmp h n i < n := by
  unfold largest
  rcases larger_eq cmp h n i (2 * i + 1) with hl | ⟨hl, hln⟩ <;>
    rcases larger_eq cmp h n (larger cmp h n i (2 * i + 1)) (2 * i + 2) with hr | ⟨hr, hrn⟩ <;> omega

/-- The entry at `i` moves down while one of its children is greater. -/
def siftDown (cmp : α → α → Ordering) (h : Nat → α) (n i : Nat) : Nat → α :=
  if largest cmp h n i = i then h
  else siftDown cmp (swap h i (largest cmp h n i)) n (largest cmp h n i)
termination_by n - i
decreasing_by
  have := largest_cases cmp h n i
  omega

/-- The root is moved behind the heap, which gets smaller, until one entry is left. -/
def heapsort (cmp : α → α → Ordering) (h : Nat → α) : Nat → (Nat → α)
  | 0 => h
  | 1 => h
  | k + 2 => heapsort cmp (siftDown cmp (swap h 0 (k + 1)) (k + 1) 0) (k + 1)

/-! ## Swaps permute the entries -/

/-- The entries at the first positions. -/
def entries (h : Nat → α) (n : Nat) : List α := (List.range n).map h

theorem mem_entries {h : Nat → α} {n : Nat} {x : α} : x ∈ entries h n ↔ ∃ i < n, h i = x := by
  simp [entries]

theorem swap_left (h : Nat → α) (i j : Nat) : swap h i j i = h j := by simp [swap]

theorem swap_right (h : Nat → α) (i j : Nat) : swap h i j j = h i := by simp [swap]

theorem swap_of_ne (h : Nat → α) {i j k : Nat} (hi : k ≠ i) (hj : k ≠ j) : swap h i j k = h k := by
  simp [swap, Equiv.swap_apply_of_ne_of_ne hi hj]

theorem entries_swap (h : Nat → α) {n i j : Nat} (hi : i < n) (hj : j < n) :
    (entries (swap h i j) n).Perm (entries h n) := by
  have hlt : ∀ k < n, Equiv.swap i j k < n := by
    intro k hk
    rw [Equiv.swap_apply_def]
    split
    · exact hj
    · split
      · exact hi
      · exact hk
  have hrange : ((List.range n).map (Equiv.swap i j)).Perm (List.range n) := by
    refine (perm_ext_iff_of_nodup (nodup_range.map (Equiv.injective _)) nodup_range).mpr ?_
    intro k
    simp only [mem_map, mem_range]
    constructor
    · rintro ⟨k, hk, rfl⟩
      exact hlt k hk
    · exact fun hk => ⟨Equiv.swap i j k, hlt k hk, Equiv.swap_apply_self i j k⟩
  have hmap := hrange.map h
  rwa [map_map] at hmap

/-- Each entry of a rearrangement was an entry before. -/
theorem exists_of_perm {h h' : Nat → α} {n i : Nat} (hperm : (entries h' n).Perm (entries h n))
    (hi : i < n) : ∃ j < n, h' i = h j := by
  obtain ⟨j, hj, heq⟩ := mem_entries.mp (hperm.mem_iff.mp (mem_entries.mpr ⟨i, hi, rfl⟩))
  exact ⟨j, hj, heq.symm⟩

theorem mem_of_perm {h h' : Nat → α} {n : Nat} {l : List α} (hperm : (entries h' n).Perm (entries h n))
    (hmem : ∀ i < n, h i ∈ l) : ∀ i < n, h' i ∈ l := by
  intro i hi
  obtain ⟨j, hj, heq⟩ := exists_of_perm hperm hi
  exact heq ▸ hmem j hj

section

variable (cmp : α → α → Ordering) (h : Nat → α)

include cmp h

theorem entries_siftUp {n i : Nat} (hi : i < n) :
    (entries (siftUp cmp h i) n).Perm (entries h n) := by
  induction h, i using siftUp.induct cmp with
  | case1 h i hpos hgt ih =>
    rw [siftUp, if_pos hpos, if_pos hgt]
    exact (ih (by omega)).trans (entries_swap h hi (by omega))
  | case2 h i hpos hgt =>
    rw [siftUp, if_pos hpos, if_neg hgt]
  | case3 h i hpos =>
    rw [siftUp, if_neg hpos]

theorem entries_siftDown {n i N : Nat} (hi : i < n) (hN : n ≤ N) :
    (entries (siftDown cmp h n i) N).Perm (entries h N) := by
  induction h, i using siftDown.induct cmp n with
  | case1 h i hstop => rw [siftDown, if_pos hstop]
  | case2 h i hmove ih =>
    have hcases := largest_cases cmp h n i
    rw [siftDown, if_neg hmove]
    exact (ih (by omega)).trans (entries_swap h (by omega) (by omega))

/-- What is behind the heap stays. -/
theorem siftDown_of_le {n i k : Nat} (hi : i < n) (hk : n ≤ k) :
    siftDown cmp h n i k = h k := by
  induction h, i using siftDown.induct cmp n with
  | case1 h i hstop => rw [siftDown, if_pos hstop]
  | case2 h i hmove ih =>
    have hcases := largest_cases cmp h n i
    rw [siftDown, if_neg hmove, ih (by omega), swap_of_ne h (by omega) (by omega)]

/-- The root is exchanged with the last entry of the heap, which then moves down. -/
theorem entries_step {k N : Nat} (hk : k + 2 ≤ N) :
    (entries (siftDown cmp (swap h 0 (k + 1)) (k + 1) 0) N).Perm (entries h N) :=
  (entries_siftDown cmp _ (by omega) (by omega)).trans (entries_swap h (by omega) (by omega))

end

theorem entries_heapsort (cmp : α → α → Ordering) {N : Nat} : ∀ (k : Nat) (h : Nat → α), k ≤ N →
    (entries (heapsort cmp h k) N).Perm (entries h N)
  | 0, _, _ => List.Perm.refl _
  | 1, _, _ => List.Perm.refl _
  | k + 2, h, hk => by
    rw [heapsort]
    exact (entries_heapsort cmp (k + 1) _ (by omega)).trans (entries_step cmp h hk)

/-! ## Order -/

variable {cmp : α → α → Ordering} {rank : α → Nat} {h : Nat → α} {n i : Nat} {l : List α}

/-- No entry is greater than its parent. -/
def HeapOrd (rank : α → Nat) (h : Nat → α) (n : Nat) : Prop :=
  ∀ c, 0 < c → c < n → rank (h c) ≤ rank (h ((c - 1) / 2))

/-- Only the entry at `i` may be greater than its parent, and its children are not greater than that one. -/
structure UpOrd (rank : α → Nat) (h : Nat → α) (n i : Nat) : Prop where
  others : ∀ c, 0 < c → c < n → c ≠ i → rank (h c) ≤ rank (h ((c - 1) / 2))
  grand : 0 < i → ∀ c, 0 < c → c < n → (c - 1) / 2 = i → rank (h c) ≤ rank (h ((i - 1) / 2))

/-- Only the children of the entry at `i` may be greater than it, and they are not greater than its
parent. -/
structure DownOrd (rank : α → Nat) (h : Nat → α) (n i : Nat) : Prop where
  others : ∀ c, 0 < c → c < n → (c - 1) / 2 ≠ i → rank (h c) ≤ rank (h ((c - 1) / 2))
  grand : 0 < i → ∀ c, 0 < c → c < n → (c - 1) / 2 = i → rank (h c) ≤ rank (h ((i - 1) / 2))

theorem UpOrd.swap (ho : UpOrd rank h n i) (hpos : 0 < i) (hi : i < n)
    (hgt : rank (h ((i - 1) / 2)) < rank (h i)) :
    UpOrd rank (swap h i ((i - 1) / 2)) n ((i - 1) / 2) := by
  generalize hp : (i - 1) / 2 = p at hgt ⊢
  have hsib : ∀ c, 0 < c → c < n → c ≠ i → (c - 1) / 2 = p → rank (h c) ≤ rank (h p) := by
    intro c hc hcn hci hcp
    exact hcp ▸ ho.others c hc hcn hci
  constructor
  · intro c hc hcn hcp
    by_cases hci : c = i
    · subst hci
      rw [hp, swap_left, swap_right]
      exact hgt.le
    · rw [swap_of_ne h hci hcp]
      by_cases hparent : (c - 1) / 2 = i
      · -- a child of the entry that came down
        rw [hparent, swap_left]
        exact hp ▸ ho.grand hpos c hc hcn hparent
      · by_cases hsibling : (c - 1) / 2 = p
        · rw [hsibling, swap_right]
          exact (hsib c hc hcn hci hsibling).trans hgt.le
        · rw [swap_of_ne h hparent hsibling]
          exact ho.others c hc hcn hci
  · intro hppos c hc hcn hparent
    have hup : rank (h p) ≤ rank (h ((p - 1) / 2)) := ho.others p hppos (by omega) (by omega)
    rw [swap_of_ne h (show (p - 1) / 2 ≠ i by omega) (show (p - 1) / 2 ≠ p by omega)]
    by_cases hci : c = i
    · subst hci
      rw [swap_left]
      exact hup
    · rw [swap_of_ne h hci (by omega)]
      exact (hsib c hc hcn hci hparent).trans hup

theorem UpOrd.stop (ho : UpOrd rank h n i) (hstop : 0 < i → rank (h i) ≤ rank (h ((i - 1) / 2))) :
    HeapOrd rank h n := by
  intro c hc hcn
  by_cases hci : c = i
  · subst hci
    exact hstop hc
  · exact ho.others c hc hcn hci

theorem DownOrd.swap {m : Nat} (ho : DownOrd rank h n i) (hm : m = 2 * i + 1 ∨ m = 2 * i + 2) (hmn : m < n)
    (hgt : rank (h i) < rank (h m))
    (hmax : ∀ c, 0 < c → c < n → (c - 1) / 2 = i → rank (h c) ≤ rank (h m)) :
    DownOrd rank (swap h i m) n m := by
  have hparent : (m - 1) / 2 = i := by omega
  constructor
  · intro c hc hcn hcm
    by_cases hci : c = i
    · subst hci
      rw [swap_left, swap_of_ne h (show (c - 1) / 2 ≠ c by omega) hcm]
      exact ho.grand hc m (by omega) hmn hparent
    · by_cases heq : c = m
      · subst heq
        rw [hparent, swap_left, swap_right]
        exact hgt.le
      · rw [swap_of_ne h hci heq]
        by_cases hchild : (c - 1) / 2 = i
        · rw [hchild, swap_left]
          exact hmax c hc hcn hchild
        · rw [swap_of_ne h hchild hcm]
          exact ho.others c hc hcn hchild
  · intro _ c hc hcn hchild
    rw [hparent, swap_left, swap_of_ne h (by omega) (by omega)]
    exact hchild ▸ ho.others c hc hcn (by omega)

theorem DownOrd.stop (ho : DownOrd rank h n i)
    (hstop : ∀ c, 0 < c → c < n → (c - 1) / 2 = i → rank (h c) ≤ rank (h i)) : HeapOrd rank h n := by
  intro c hc hcn
  by_cases hchild : (c - 1) / 2 = i
  · exact hchild ▸ hstop c hc hcn hchild
  · exact ho.others c hc hcn hchild

/-! ## The sifts -/

section Sifts

variable (hrank : IsRank cmp l rank)

include hrank

/-- **An entry that moves up leaves a heap.** -/
theorem heapOrd_siftUp (hi : i < n) (hmem : ∀ k < n, h k ∈ l) (ho : UpOrd rank h n i) :
    HeapOrd rank (siftUp cmp h i) n := by
  induction h, i using siftUp.induct cmp with
  | case1 h i hpos hgt ih =>
    rw [siftUp, if_pos hpos, if_pos hgt]
    have hlt := (hrank.eq_gt (hmem i hi) (hmem _ (by omega))).mp hgt
    have hperm := entries_swap h hi (show (i - 1) / 2 < n by omega)
    exact ih (by omega) (mem_of_perm hperm hmem) (ho.swap hpos hi hlt)
  | case2 h i hpos hgt =>
    rw [siftUp, if_pos hpos, if_neg hgt]
    exact ho.stop fun _ => (hrank.ne_gt (hmem i hi) (hmem _ (by omega))).mp hgt
  | case3 h i hpos =>
    rw [siftUp, if_neg hpos]
    exact ho.stop fun h0 => absurd h0 hpos

/-- What `larger` returns is no smaller than both, and greater than `m` if it is not `m`. -/
theorem rank_larger {m c : Nat} (hm : m < n) (hmem : ∀ k < n, h k ∈ l) :
    (larger cmp h n m c = m ∨ rank (h m) < rank (h (larger cmp h n m c))) ∧
      (c < n → rank (h c) ≤ rank (h (larger cmp h n m c))) := by
  unfold larger
  split
  · next hc => exact ⟨Or.inr ((hrank.eq_gt (hmem c hc.1) (hmem m hm)).mp hc.2), fun _ => le_rfl⟩
  · next hc =>
    refine ⟨Or.inl rfl, fun hcn => ?_⟩
    exact (hrank.ne_gt (hmem c hcn) (hmem m hm)).mp fun hgt => hc ⟨hcn, hgt⟩

/-- The greatest of an entry and its children is greater than none of them, and greater than the entry if it
is another one. -/
theorem rank_largest (hi : i < n) (hmem : ∀ k < n, h k ∈ l) :
    (∀ c, 0 < c → c < n → (c - 1) / 2 = i → rank (h c) ≤ rank (h (largest cmp h n i))) ∧
      (largest cmp h n i ≠ i → rank (h i) < rank (h (largest cmp h n i))) := by
  have hlast : larger cmp h n i (2 * i + 1) < n := by
    rcases larger_eq cmp h n i (2 * i + 1) with heq | ⟨heq, hlt⟩ <;> omega
  obtain ⟨hself, hleft⟩ := @rank_larger _ cmp rank h n l hrank i (2 * i + 1) hi hmem
  obtain ⟨hboth, hright⟩ := @rank_larger _ cmp rank h n l hrank _ (2 * i + 2) hlast hmem
  have hle : rank (h (larger cmp h n i (2 * i + 1))) ≤ rank (h (largest cmp h n i)) := by
    rcases hboth with heq | hlt
    · rw [largest, heq]
    · exact hlt.le
  constructor
  · intro c hc hcn hchild
    obtain rfl | rfl : c = 2 * i + 1 ∨ c = 2 * i + 2 := by omega
    · exact (hleft hcn).trans hle
    · exact hright hcn
  · intro hne
    rcases hself with heq | hlt
    · -- the left child is not greater, so it is the right one
      rw [heq] at hboth
      rw [largest, heq] at hne ⊢
      exact hboth.resolve_left hne
    · exact hlt.trans_le hle

/-- **An entry that moves down leaves a heap.** -/
theorem heapOrd_siftDown (hi : i < n) (hmem : ∀ k < n, h k ∈ l) (ho : DownOrd rank h n i) :
    HeapOrd rank (siftDown cmp h n i) n := by
  induction h, i using siftDown.induct cmp n with
  | case1 h i hstop =>
    rw [siftDown, if_pos hstop]
    refine ho.stop fun c hc hcn hchild => ?_
    have hmax := (rank_largest hrank hi hmem).1 c hc hcn hchild
    rwa [hstop] at hmax
  | case2 h i hmove ih =>
    obtain ⟨hmax, hgt⟩ := rank_largest hrank hi hmem
    have hcases := largest_cases cmp h n i
    rw [siftDown, if_neg hmove]
    have hperm := entries_swap h hi (show largest cmp h n i < n by omega)
    exact ih (by omega) (mem_of_perm hperm hmem) (ho.swap (by omega) (by omega) (hgt hmove) hmax)

end Sifts

/-! ## Heapsort -/

/-- The root of a heap is greatest. -/
theorem HeapOrd.le_root (ho : HeapOrd rank h n) : ∀ i < n, rank (h i) ≤ rank (h 0) := by
  intro i
  induction i using Nat.strong_induction_on with
  | h i ih =>
    intro hi
    by_cases h0 : i = 0
    · rw [h0]
    · exact (ho i (by omega) hi).trans (ih ((i - 1) / 2) (by omega) (by omega))

/-- The first `k` entries are a heap, the others are sorted and not smaller. -/
structure SortedFrom (rank : α → Nat) (h : Nat → α) (k n : Nat) : Prop where
  heap : HeapOrd rank h k
  tail : ∀ i j, k ≤ i → i ≤ j → j < n → rank (h i) ≤ rank (h j)
  below : ∀ i j, i < k → k ≤ j → j < n → rank (h i) ≤ rank (h j)

/-- One step of heapsort. -/
theorem SortedFrom.step {k : Nat} (hrank : IsRank cmp l rank) (hmem : ∀ i < n, h i ∈ l) (hk : k + 2 ≤ n)
    (ho : SortedFrom rank h (k + 2) n) :
    SortedFrom rank (siftDown cmp (swap h 0 (k + 1)) (k + 1) 0) (k + 1) n := by
  have hroot := ho.heap.le_root
  -- what is in the smaller heap was in the heap
  have hin : ∀ i < k + 2, ∃ j < k + 2, siftDown cmp (swap h 0 (k + 1)) (k + 1) 0 i = h j := fun i hi =>
    exists_of_perm (entries_step cmp h le_rfl) hi
  have hbehind : ∀ j, k + 1 ≤ j → siftDown cmp (swap h 0 (k + 1)) (k + 1) 0 j = swap h 0 (k + 1) j :=
    fun j hj => siftDown_of_le cmp _ (by omega) hj
  have hend : swap h 0 (k + 1) (k + 1) = h 0 := swap_right h 0 (k + 1)
  have htail : ∀ j, k + 2 ≤ j → swap h 0 (k + 1) j = h j := fun j hj =>
    swap_of_ne h (by omega) (by omega)
  constructor
  · refine heapOrd_siftDown hrank (by omega) (fun i hi => ?_) ⟨fun c hc hcn hchild => ?_, fun h0 => by omega⟩
    · by_cases h0 : i = 0
      · rw [h0, swap_left]
        exact hmem _ (by omega)
      · rw [swap_of_ne h h0 (by omega)]
        exact hmem i (by omega)
    · rw [swap_of_ne h (by omega) (by omega), swap_of_ne h hchild (by omega)]
      exact ho.heap c hc (by omega)
  · intro i j hi hij hj
    rw [hbehind i hi, hbehind j (by omega)]
    by_cases hik : i = k + 1
    · subst hik
      rw [hend]
      by_cases hjk : j = k + 1
      · rw [hjk, hend]
      · rw [htail j (by omega)]
        exact ho.below 0 j (by omega) (by omega) hj
    · rw [htail i (by omega), htail j (by omega)]
      exact ho.tail i j (by omega) hij hj
  · intro i j hi hjk hj
    obtain ⟨i', hi', heq⟩ := hin i (by omega)
    rw [heq, hbehind j hjk]
    by_cases hje : j = k + 1
    · rw [hje, hend]
      exact hroot i' hi'
    · rw [htail j (by omega)]
      exact ho.below i' j hi' (by omega) hj

theorem heapsort_ordered (hrank : IsRank cmp l rank) : ∀ (k : Nat) (h : Nat → α), k ≤ n →
    (∀ i < n, h i ∈ l) → SortedFrom rank h k n →
    ∀ i j, i ≤ j → j < n → rank (heapsort cmp h k i) ≤ rank (heapsort cmp h k j)
  | 0, h, _, _, ho => fun i j hij hj => ho.tail i j (Nat.zero_le i) hij hj
  | 1, h, _, _, ho => by
    intro i j hij hj
    by_cases hi : i = 0
    · by_cases hj0 : j = 0
      · rw [hi, hj0]
      · exact ho.below i j (by omega) (by omega) hj
    · exact ho.tail i j (by omega) hij hj
  | k + 2, h, hk, hmem, ho => by
    rw [heapsort]
    exact heapsort_ordered hrank (k + 1) _ (by omega) (mem_of_perm (entries_step cmp h hk) hmem)
      (ho.step hrank hmem hk)

/-- **Heapsort of a heap leaves its entries sorted.** -/
theorem heapsort_sorted (hrank : IsRank cmp l rank) (hmem : ∀ i < n, h i ∈ l) (ho : HeapOrd rank h n) :
    (entries (heapsort cmp h n) n).Pairwise fun a b => rank a ≤ rank b := by
  have hsorted := heapsort_ordered hrank n h le_rfl hmem
    ⟨ho, fun i j hi hij hj => by omega, fun i j hi hj hjn => by omega⟩
  rw [entries, pairwise_map]
  refine pairwise_lt_range.imp_of_mem fun {i j} _ hj hij => ?_
  exact hsorted i j hij.le (mem_range.mp hj)

/-! ## The least of a stream -/

theorem entries_succ (h : Nat → α) (n : Nat) : entries h (n + 1) = entries h n ++ [h n] := by
  simp [entries, range_succ]

theorem entries_update_of_le (h : Nat → α) (x : α) {n i : Nat} (hi : n ≤ i) :
    entries (Function.update h i x) n = entries h n := by
  refine map_congr_left fun k hk => ?_
  have hne : k ≠ i := by
    have := mem_range.mp hk
    omega
  exact Function.update_of_ne hne x h

/-- With the root replaced, the entries and the old root are the old entries and the new root. -/
theorem entries_update_zero (h : Nat → α) (x : α) (n : Nat) :
    (entries (Function.update h 0 x) (n + 1) ++ [h 0]).Perm (entries h (n + 1) ++ [x]) := by
  have hsplit : ∀ h : Nat → α, entries h (n + 1) = h 0 :: entries (fun i => h (i + 1)) n := fun h => by
    simp [entries, range_succ_eq_map, Function.comp_def]
  have hrest : entries (fun i => Function.update h 0 x (i + 1)) n = entries (fun i => h (i + 1)) n :=
    map_congr_left fun k _ => Function.update_of_ne (Nat.succ_ne_zero k) x h
  rw [hsplit, hsplit, hrest, Function.update_self, cons_append, cons_append]
  exact ((perm_append_singleton _ _).cons x).trans
    ((List.Perm.swap (h 0) x _).trans ((perm_append_singleton _ _).symm.cons (h 0)))

/-- A heap with some of `xs`, none of them greater than one of the others. -/
structure Kept (rank : α → Nat) (xs : List α) (h : Nat → α) (n : Nat) : Prop where
  heap : HeapOrd rank h n
  split : ∃ out : List α, (entries h n ++ out).Perm xs ∧ ∀ o ∈ out, ∀ i < n, rank (h i) ≤ rank o

theorem Kept.mem {xs : List α} (hk : Kept rank xs h n) : ∀ i < n, h i ∈ xs := by
  obtain ⟨out, hperm, -⟩ := hk.split
  intro i hi
  exact hperm.subset (mem_append_left _ (mem_entries.mpr ⟨i, hi, rfl⟩))

section Kept

variable {xs : List α} {x : α} (hrank : IsRank cmp l rank) (hl : ∀ a ∈ xs ++ [x], a ∈ l)

include hrank hl

/-- One more entry, while all are kept. -/
theorem Kept.push (hk : Kept rank xs h n) (hn : n = xs.length) :
    Kept rank (xs ++ [x]) (siftUp cmp (Function.update h n x) n) (n + 1) := by
  obtain ⟨out, hperm, -⟩ := hk.split
  have hout : out = [] := by
    have hlen := hperm.length_eq
    rw [length_append, entries, length_map, length_range] at hlen
    exact length_eq_zero_iff.mp (by omega)
  rw [hout, append_nil] at hperm
  have hnew : entries (Function.update h n x) (n + 1) = entries h n ++ [x] := by
    rw [entries_succ, entries_update_of_le h x le_rfl, Function.update_self]
  have hmem : ∀ i < n + 1, Function.update h n x i ∈ l := by
    intro i hi
    refine hl _ ((hperm.append_right [x]).subset ?_)
    rw [← hnew]
    exact mem_entries.mpr ⟨i, hi, rfl⟩
  constructor
  · refine heapOrd_siftUp hrank (by omega) hmem ⟨fun c hc hcn hcx => ?_, fun _ c _ hcn hchild => by omega⟩
    rw [Function.update_of_ne hcx, Function.update_of_ne (by omega)]
    exact hk.heap c hc (by omega)
  · refine ⟨[], ?_, by simp⟩
    rw [append_nil]
    refine (entries_siftUp cmp _ (by omega)).trans ?_
    rw [hnew]
    exact hperm.append_right [x]

/-- A smaller entry takes the place of the root. -/
theorem Kept.replace (hk : Kept rank xs h (n + 1)) (hlt : rank x < rank (h 0)) :
    Kept rank (xs ++ [x]) (siftDown cmp (Function.update h 0 x) (n + 1) 0) (n + 1) := by
  obtain ⟨out, hperm, hout⟩ := hk.split
  have hroot := hk.heap.le_root
  have hsift := entries_siftDown cmp (Function.update h 0 x) (show 0 < n + 1 by omega) le_rfl
  have hall : (entries (siftDown cmp (Function.update h 0 x) (n + 1) 0) (n + 1) ++ (h 0 :: out)).Perm
      (xs ++ [x]) := by
    rw [← singleton_append, ← append_assoc]
    refine ((hsift.append_right [h 0]).trans (entries_update_zero h x n)).append_right out |>.trans ?_
    rw [append_assoc]
    refine (perm_append_comm.append_left _).trans ?_
    rw [← append_assoc]
    exact hperm.append_right [x]
  have hmem : ∀ i < n + 1, Function.update h 0 x i ∈ l := by
    intro i hi
    refine hl _ (hall.subset (mem_append_left _ (hsift.symm.subset ?_)))
    exact mem_entries.mpr ⟨i, hi, rfl⟩
  have hle : ∀ i < n + 1, rank (Function.update h 0 x i) ≤ rank (h 0) := by
    intro i hi
    by_cases h0 : i = 0
    · rw [h0, Function.update_self]
      exact hlt.le
    · rw [Function.update_of_ne h0]
      exact hroot i hi
  constructor
  · refine heapOrd_siftDown hrank (by omega) hmem ⟨fun c hc hcn hchild => ?_, fun h0 => by omega⟩
    rw [Function.update_of_ne (by omega), Function.update_of_ne hchild]
    exact hk.heap c hc hcn
  · refine ⟨h 0 :: out, hall, fun o ho i hi => ?_⟩
    obtain ⟨j, hj, heq⟩ := exists_of_perm hsift hi
    rw [heq]
    rcases mem_cons.mp ho with rfl | ho
    · exact hle j hj
    · exact (hle j hj).trans (hout o ho 0 (by omega))

omit hrank hl in
/-- An entry that is not smaller than those kept is left out. -/
theorem Kept.skip (hk : Kept rank xs h n) (hge : ∀ i < n, rank (h i) ≤ rank x) :
    Kept rank (xs ++ [x]) h n := by
  obtain ⟨out, hperm, hout⟩ := hk.split
  refine ⟨hk.heap, out ++ [x], ?_, fun o ho i hi => ?_⟩
  · rw [← append_assoc]
    exact hperm.append_right [x]
  · rcases mem_append.mp ho with ho | ho
    · exact hout o ho i hi
    · rw [mem_singleton.mp ho]
      exact hge i hi

end Kept

end BinaryHeap
