import TransactionDB.Lib.SortedEntries
import TransactionDB.Storage.BTreeSplit

/-!
# TransactionDB — the order of the keys in a B-tree

Every subtree is responsible for a range of keys, open at its lower end. The separators of an
interior page cut its range, strictly inside it: a separator is put there by the split of a leaf,
whose right half has a key behind it, and it only moves up.
-/

namespace Tdb.BTree

open SlottedPage SortedEntries List

variable {ps : Nat} {cmp : Bytes → Bytes → Ordering}

/-! ## Ranges -/

/-- `lo < k ≤ hi`, as far as there are bounds. -/
structure InRange (cmp : Bytes → Bytes → Ordering) (lo hi : Option Bytes) (k : Bytes) : Prop where
  above : ∀ l ∈ lo, cmp l k = .lt
  below : ∀ h ∈ hi, (cmp k h).isLE

/-- `lo < k < hi`, as far as there are bounds. -/
structure SepRange (cmp : Bytes → Bytes → Ordering) (lo hi : Option Bytes) (k : Bytes) : Prop where
  above : ∀ l ∈ lo, cmp l k = .lt
  below : ∀ h ∈ hi, cmp k h = .lt

theorem inRange_none (k : Bytes) : InRange cmp none none k := ⟨by simp, by simp⟩

/-- The children of an interior page, each with the range that the separators cut out for it. -/
def Chain {α : Type} (cmp : Bytes → Bytes → Ordering) (P : Option Bytes → Option Bytes → α → Prop) :
    Option Bytes → Option Bytes → List (α × Bytes) → α → Prop
  | lo, hi, [], right => P lo hi right
  | lo, hi, c :: cs, right =>
    SepRange cmp lo hi c.2 ∧ P lo (some c.2) c.1 ∧ Chain cmp P (some c.2) hi cs right

/-- The first children of an interior page, with their ranges. -/
def Before {α : Type} (cmp : Bytes → Bytes → Ordering) (P : Option Bytes → Option Bytes → α → Prop) :
    Option Bytes → Option Bytes → List (α × Bytes) → Prop
  | _, _, [] => True
  | lo, hi, c :: cs => SepRange cmp lo hi c.2 ∧ P lo (some c.2) c.1 ∧ Before cmp P (some c.2) hi cs

/-- The lower end of the range behind some cells. -/
def lastSep {α : Type} : Option Bytes → List (α × Bytes) → Option Bytes
  | lo, [] => lo
  | _, c :: cs => lastSep (some c.2) cs

theorem lastSep_lt {α : Type} {key : Bytes} (xs : List (α × Bytes)) : ∀ {lo : Option Bytes},
    (∀ l ∈ lo, cmp l key = .lt) → (∀ c ∈ xs, cmp c.2 key = .lt) →
    ∀ l ∈ lastSep lo xs, cmp l key = .lt := by
  induction xs with
  | nil => intro lo hlo _; exact hlo
  | cons c xs ih =>
    intro lo _ hxs
    refine ih (fun l hl => ?_) (fun c hc => hxs c (by simp [hc]))
    obtain rfl : c.2 = l := by simpa using hl
    exact hxs c (by simp)

/-! ## Ordered trees -/

structure LeafOk (ps : Nat) (cmp : Bytes → Bytes → Ordering) (lo hi : Option Bytes) (l : Leaf) :
    Prop where
  valid : Valid (leafGeometry ps) l.page
  increasing : Increasing cmp l.page.cells
  range : ∀ c ∈ l.page.cells, InRange cmp lo hi c.1
  admitted : ∀ c ∈ l.page.cells, Admitted ps c.1

structure InteriorOk {α : Type} (ps : Nat) (cmp : Bytes → Bytes → Ordering)
    (P : Option Bytes → Option Bytes → α → Prop) (lo hi : Option Bytes) (n : Interior α) : Prop where
  valid : Valid (intGeometry ps α) n.page
  chain : Chain cmp P lo hi n.page.cells n.right
  admitted : ∀ c ∈ n.page.cells, Admitted ps c.2

/-- A subtree that is ordered and responsible for a range. -/
def TreeOk (ps : Nat) (cmp : Bytes → Bytes → Ordering) :
    (d : Nat) → Option Bytes → Option Bytes → Tree d → Prop
  | 0, lo, hi, t => LeafOk ps cmp lo hi t
  | d + 1, lo, hi, t => InteriorOk ps cmp (TreeOk ps cmp d) lo hi t

/-- The entries below some cells and the child behind them. -/
def chainEntries {α : Type} (f : α → List LeafCell) (cells : List (α × Bytes)) (right : α) :
    List LeafCell := cells.flatMap (fun c => f c.1) ++ f right

theorem entries_interior (d : Nat) (n : Interior (Tree d)) :
    Tree.entries (d + 1) n = chainEntries (Tree.entries d) n.page.cells n.right := by
  simp [Tree.entries, Interior.children, chainEntries, flatMap_map]

section Chain

variable {α : Type} {P : Option Bytes → Option Bytes → α → Prop} {lo hi : Option Bytes}

theorem chain_append (xs ys : List (α × Bytes)) (right : α) : ∀ (lo : Option Bytes),
    Chain cmp P lo hi (xs ++ ys) right ↔
      Before cmp P lo hi xs ∧ Chain cmp P (lastSep lo xs) hi ys right := by
  induction xs with
  | nil => intro lo; simp [Before, lastSep]
  | cons c xs ih =>
    intro lo
    simp only [cons_append, Chain, Before, lastSep, ih, and_assoc]

variable [Std.TransCmp cmp]

section

variable {xs : List (α × Bytes)} {k : Bytes}

/-- A separator behind some cells is behind all of their separators. -/
theorem Before.lt_of_mem : ∀ {lo : Option Bytes},
    Before cmp P lo hi xs → (∀ l ∈ lastSep lo xs, cmp l k = .lt) → ∀ c ∈ xs, cmp c.2 k = .lt := by
  induction xs with
  | nil => intro lo _ _ c hc; simp at hc
  | cons x xs ih =>
    intro lo hbefore hk c hc
    rcases mem_cons.mp hc with rfl | hc
    · -- the cells behind `c` have separators behind its own
      cases xs with
      | nil => exact hk _ rfl
      | cons y ys =>
        exact Std.TransCmp.lt_trans (hbefore.2.2.1.above _ rfl) (ih hbefore.2.2 hk y (by simp))
    · exact ih hbefore.2.2 hk c hc

/-- The lower end moves up. -/
theorem Before.above (h : Before cmp P lo hi xs) (hk : ∀ l ∈ lastSep lo xs, cmp l k = .lt) :
    ∀ l ∈ lo, cmp l k = .lt := by
  intro l hl
  cases xs with
  | nil => exact hk l hl
  | cons x xs => exact Std.TransCmp.lt_trans (h.1.above l hl) (h.lt_of_mem hk x (by simp))

/-- The cells in front of a separator, with the child in front of it as their last. -/
theorem Before.chain {a : α} : ∀ {lo : Option Bytes},
    Before cmp P lo hi xs → (∀ l ∈ lastSep lo xs, cmp l k = .lt) → P (lastSep lo xs) (some k) a →
    Chain cmp P lo (some k) xs a := by
  induction xs with
  | nil => intro lo _ _ ha; exact ha
  | cons x xs ih =>
    intro lo hbefore hk ha
    refine ⟨⟨hbefore.1.above, ?_⟩, hbefore.2.1, ih hbefore.2.2 hk ha⟩
    intro h hh
    obtain rfl : k = h := by simpa using hh
    exact hbefore.lt_of_mem hk x (by simp)

end

/-- An interior page cut at a separator. -/
theorem Chain.cut {xs ys : List (α × Bytes)} {c : α × Bytes} {right : α}
    (h : Chain cmp P lo hi (xs ++ c :: ys) right) :
    SepRange cmp lo hi c.2 ∧ Chain cmp P lo (some c.2) xs c.1 ∧ Chain cmp P (some c.2) hi ys right := by
  obtain ⟨hbefore, hsep, hchild, hrest⟩ := (chain_append xs (c :: ys) right lo).mp h
  exact ⟨⟨hbefore.above hsep.above, hsep.below⟩, hbefore.chain hsep.above hchild, hrest⟩

theorem Chain.above {right : α} (cells : List (α × Bytes)) : ∀ {lo : Option Bytes},
    Chain cmp P lo hi cells right → ∀ c ∈ cells, ∀ l ∈ lo, cmp l c.2 = .lt := by
  induction cells with
  | nil => intro lo _ c hc; simp at hc
  | cons x cells ih =>
    intro lo h c hc l hl
    rcases mem_cons.mp hc with rfl | hc
    · exact h.1.above l hl
    · exact Std.TransCmp.lt_trans (h.1.above l hl) (ih h.2.2 c hc _ rfl)

/-- The separators of an interior page are strictly increasing. -/
theorem Chain.pairwise {right : α} (cells : List (α × Bytes)) : ∀ {lo : Option Bytes},
    Chain cmp P lo hi cells right → cells.Pairwise (fun a b => cmp a.2 b.2 = .lt) := by
  induction cells with
  | nil => intro lo _; exact List.Pairwise.nil
  | cons x cells ih =>
    intro lo h
    exact pairwise_cons.mpr ⟨fun c hc => Chain.above cells h.2.2 c hc _ rfl, ih h.2.2⟩

/-! ## Entries are in range and increasing -/

/-- The entries of a child are increasing and in its range. -/
def Good (cmp : Bytes → Bytes → Ordering) (f : α → List LeafCell)
    (P : Option Bytes → Option Bytes → α → Prop) : Prop :=
  ∀ lo hi a, P lo hi a → Increasing cmp (f a) ∧ ∀ e ∈ f a, InRange cmp lo hi e.1

variable {f : α → List LeafCell}

theorem SepRange.inRange_left {k j : Bytes} (h : SepRange cmp lo hi k)
    (hj : InRange cmp lo (some k) j) : InRange cmp lo hi j := by
  refine ⟨hj.above, fun h' hh' => ?_⟩
  have hlt := Std.TransCmp.lt_of_isLE_of_lt (hj.below k rfl) (h.below h' hh')
  rw [hlt]
  rfl

theorem SepRange.inRange_right {k j : Bytes} (h : SepRange cmp lo hi k)
    (hj : InRange cmp (some k) hi j) : InRange cmp lo hi j :=
  ⟨fun l hl => Std.TransCmp.lt_trans (h.above l hl) (hj.above k rfl), hj.below⟩

theorem SepRange.lt_of_inRange {k j j' : Bytes} (hj : InRange cmp lo (some k) j)
    (hj' : InRange cmp (some k) hi j') : cmp j j' = .lt :=
  Std.TransCmp.lt_of_isLE_of_lt (hj.below k rfl) (hj'.above k rfl)

theorem Good.chain (hgood : Good cmp f P) {right : α} (cells : List (α × Bytes)) :
    ∀ {lo : Option Bytes}, Chain cmp P lo hi cells right →
      Increasing cmp (chainEntries f cells right) ∧
        ∀ e ∈ chainEntries f cells right, InRange cmp lo hi e.1 := by
  induction cells with
  | nil =>
    intro lo h
    simpa [chainEntries] using hgood lo hi right h
  | cons c cells ih =>
    intro lo ⟨hsep, hchild, hrest⟩
    obtain ⟨hinc, hrange⟩ := hgood _ _ _ hchild
    obtain ⟨hinc', hrange'⟩ := ih hrest
    have hcons : chainEntries f (c :: cells) right = f c.1 ++ chainEntries f cells right := by
      simp [chainEntries]
    rw [hcons]
    refine ⟨pairwise_append.mpr ⟨hinc, hinc', fun e he e' he' => ?_⟩, fun e he => ?_⟩
    · exact SepRange.lt_of_inRange (hrange e he) (hrange' e' he')
    · rcases mem_append.mp he with he | he
      · exact hsep.inRange_left (hrange e he)
      · exact hsep.inRange_right (hrange' e he)

/-- The entries below the cells in front of a key are in front of it. -/
theorem Good.before (hgood : Good cmp f P) {key : Bytes} (xs : List (α × Bytes)) :
    ∀ {lo : Option Bytes}, Before cmp P lo hi xs → (∀ c ∈ xs, cmp c.2 key = .lt) →
      ∀ e ∈ xs.flatMap (fun c => f c.1), cmp e.1 key = .lt := by
  induction xs with
  | nil => intro lo _ _ e he; simp at he
  | cons c xs ih =>
    intro lo hbefore hkey e he
    rw [flatMap_cons, mem_append] at he
    rcases he with he | he
    · have hrange := (hgood _ _ _ hbefore.2.1).2 e he
      exact Std.TransCmp.lt_of_isLE_of_lt (hrange.below _ rfl) (hkey c (by simp))
    · exact ih hbefore.2.2 (fun c hc => hkey c (by simp [hc])) e he

end Chain

theorem good_treeOk [Std.TransCmp cmp] (d : Nat) :
    Good cmp (Tree.entries d) (TreeOk ps cmp d) := by
  induction d with
  | zero => intro lo hi t h; exact ⟨h.increasing, h.range⟩
  | succ d ih =>
    intro lo hi t h
    rw [show Tree.entries (d + 1) t = _ from entries_interior d t]
    exact ih.chain _ h.chain

/-! ## The place of a key -/

section

variable [Std.TransCmp cmp] {γ : Type} {f : γ → Bytes} {cells : List γ}
  (hinc : cells.Pairwise (fun a b => cmp (f a) (f b) = .lt)) (key : Bytes)

include hinc key

/-- `pg_find` cuts the cells of a page into those in front of the key and the others. -/
theorem pgFind_spec :
    ∃ xs ys, cells = xs ++ ys ∧ xs.length = pgFind cmp (cells.map f) key ∧
      (∀ c ∈ xs, cmp (f c) key = .lt) ∧ ∀ c ∈ ys, cmp (f c) key ≠ .lt := by
  have hget : ∀ (i : Nat) (hi : i < cells.length), (cells.map f).getD i [] = f cells[i] := by
    intro i hi
    simp [List.getD, hi]
  have hanti : ∀ i j, i ≤ j → j < (cells.map f).length →
      decide (cmp ((cells.map f).getD j []) key = .lt) = true →
      decide (cmp ((cells.map f).getD i []) key = .lt) = true := by
    intro i j hij hj hlt
    rw [length_map] at hj
    rw [hget j hj, decide_eq_true_eq] at hlt
    rw [hget i (by omega), decide_eq_true_eq]
    rcases Nat.eq_or_lt_of_le hij with rfl | hij
    · exact hlt
    · exact Std.TransCmp.lt_trans (pairwise_iff_getElem.mp hinc i j (by omega) hj hij) hlt
  obtain ⟨hle, hlow, hhigh⟩ : pgFind cmp (cells.map f) key ≤ (cells.map f).length ∧ _ :=
    LowerBound.find_spec hanti
  rw [length_map] at hle
  refine ⟨cells.take (pgFind cmp (cells.map f) key), cells.drop (pgFind cmp (cells.map f) key),
    (take_append_drop _ _).symm, ?_, fun c hc => ?_, fun c hc => ?_⟩
  · rw [length_take, Nat.min_eq_left hle]
  · obtain ⟨i, hi, rfl⟩ := mem_take_iff_getElem.mp hc
    have hlt := hlow i (lt_of_lt_of_le hi (Nat.min_le_left _ _))
    rwa [hget i (by omega), decide_eq_true_eq] at hlt
  · obtain ⟨i, hi, rfl⟩ := mem_drop_iff_getElem.mp hc
    have hnot := hhigh (pgFind cmp (cells.map f) key + i) (Nat.le_add_right _ _)
      (by rw [length_map]; omega)
    rwa [hget _ (by omega), decide_eq_true_eq] at hnot

/-- The cells around the one of a key, or around its place. -/
theorem pgFind_locate :
    ∃ xs ys, xs.length = pgFind cmp (cells.map f) key ∧ (∀ p ∈ xs, cmp (f p) key = .lt) ∧
      (∀ p ∈ ys, cmp (f p) key = .gt) ∧
      ((pgExact cmp (cells.map f) key = true ∧ ∃ c, cmp (f c) key = .eq ∧ cells = xs ++ c :: ys) ∨
        (pgExact cmp (cells.map f) key = false ∧ cells = xs ++ ys)) := by
  obtain ⟨xs, ys, hcells, hlen, hxs, hys⟩ := pgFind_spec hinc key
  have hexact : (cells.map f)[pgFind cmp (cells.map f) key]? = ys.head?.map f := by
    rw [← hlen, hcells, map_append, getElem?_append_right (by simp)]
    simp [head?_eq_getElem?]
  rw [hcells, pairwise_append] at hinc
  cases ys with
  | nil => exact ⟨xs, [], hlen, hxs, by simp, .inr ⟨by simp [pgExact, hexact], hcells⟩⟩
  | cons c ys =>
    -- the keys behind the first one that is not in front of the target
    have hbehind : ∀ p ∈ ys, cmp (f c) (f p) = .lt := (pairwise_cons.mp hinc.2.1).1
    by_cases heq : cmp (f c) key = .eq
    · refine ⟨xs, ys, hlen, hxs, fun p hp => ?_, .inl ⟨by simp [pgExact, hexact, heq], c, heq, hcells⟩⟩
      rw [Std.OrientedCmp.gt_iff_lt, ← Std.TransCmp.congr_left heq]
      exact hbehind p hp
    · have hcgt : cmp (f c) key = .gt := by
        cases hc : cmp (f c) key <;> simp_all
      refine ⟨xs, c :: ys, hlen, hxs, fun p hp => ?_, .inr ⟨by simp [pgExact, hexact, heq], hcells⟩⟩
      rcases mem_cons.mp hp with rfl | hp
      · exact hcgt
      · rw [Std.OrientedCmp.gt_iff_lt] at hcgt ⊢
        exact Std.TransCmp.lt_trans hcgt (hbehind p hp)

end

end Tdb.BTree
