import Mathlib.Tactic

/-!
# MixedOrder — comparisons that are orders on some triples only

`TransAt` and `EqTransAt` are the laws of an order for one triple. A comparison that looks at a rank
first has them where it has them within a rank (`TransAt.ofRank`). A comparison of two kinds of things,
where those of the first kind are compared as they are among themselves and through a map into the
second kind otherwise, has them for every triple but two of the first kind that the map takes to the one
between them (`transAt_mixedCmp`).
-/

namespace MixedOrder

variable {α β γ : Type*} {cmp : α → α → Ordering} {a b c : α}

/-- `a ≤ b` and `b ≤ c` give `a ≤ c`. -/
def TransAt (cmp : α → α → Ordering) (a b c : α) : Prop :=
  (cmp a b).isLE → (cmp b c).isLE → (cmp a c).isLE

/-- `a = b` and `b = c` give `a = c`. -/
def EqTransAt (cmp : α → α → Ordering) (a b c : α) : Prop :=
  cmp a b = .eq → cmp b c = .eq → cmp a c = .eq

theorem TransAt.of_transCmp [Std.TransCmp cmp] (a b c : α) : TransAt cmp a b c :=
  Std.TransCmp.isLE_trans

/-- What is compared through a map has the laws of its images. -/
theorem TransAt.ofMap {cmp' : β → β → Ordering} (f : α → β) (hab : cmp a b = cmp' (f a) (f b))
    (hbc : cmp b c = cmp' (f b) (f c)) (hac : cmp a c = cmp' (f a) (f c))
    (h : TransAt cmp' (f a) (f b) (f c)) : TransAt cmp a b c := by
  unfold TransAt
  rw [hab, hbc, hac]
  exact h

/-- Both directions of an order give the law of its equality. -/
theorem EqTransAt.of_transAt [Std.OrientedCmp cmp] (h : TransAt cmp a b c) (hback : TransAt cmp c b a) :
    EqTransAt cmp a b c := by
  intro hab hbc
  have hba : cmp b a = .eq := Std.OrientedCmp.eq_symm hab
  have hcb : cmp c b = .eq := Std.OrientedCmp.eq_symm hbc
  exact Std.OrientedCmp.isLE_antisymm (h (by simp [hab]) (by simp [hbc]))
    (hback (by simp [hcb]) (by simp [hba]))

/-! ## A rank first -/

section Rank

variable {rank : α → Nat} (hrank : ∀ x y, rank x ≠ rank y → cmp x y = compare (rank x) (rank y))

include hrank

theorem rank_le_of_isLE {x y : α} (h : (cmp x y).isLE) : rank x ≤ rank y := by
  by_cases heq : rank x = rank y
  · exact heq.le
  · rw [hrank x y heq] at h
    exact Nat.isLE_compare.mp h

theorem isLE_of_rank_lt {x y : α} (h : rank x < rank y) : (cmp x y).isLE := by
  rw [hrank x y h.ne, Nat.compare_eq_lt.mpr h]
  rfl

theorem TransAt.ofRank (h : rank a = rank b → rank b = rank c → TransAt cmp a b c) :
    TransAt cmp a b c := by
  intro hab hbc
  have hab' := rank_le_of_isLE hrank hab
  have hbc' := rank_le_of_isLE hrank hbc
  by_cases hlt : rank a < rank c
  · exact isLE_of_rank_lt hrank hlt
  · exact h (by omega) (by omega) hab hbc

end Rank

/-! ## Two kinds -/

section Mixed

variable [Ord α] [Ord β]

/-- Where a thing of either kind stands among those of the second. -/
def image (f : α → β) : α ⊕ β → β
  | .inl a => f a
  | .inr b => b

def mixedCmp (f : α → β) : α ⊕ β → α ⊕ β → Ordering
  | .inl a, .inl a' => compare a a'
  | x, y => compare (image f x) (image f y)

variable {f : α → β}

/-- Two different things of the first kind are taken to the thing between them. -/
def Collapses (f : α → β) (x y z : α ⊕ β) : Prop :=
  ∃ a b a', x = .inl a ∧ y = .inr b ∧ z = .inl a' ∧ compare a a' ≠ .eq ∧
    compare (f a) b = .eq ∧ compare (f a') b = .eq

variable [Std.TransOrd α] [Std.TransOrd β]

/-- The map may take different things to one, but keeps their order. -/
theorem transAt_mixedCmp (hf : ∀ a a', (compare a a').isLE → (compare (f a) (f a')).isLE)
    {x y z : α ⊕ β} (h : ¬Collapses f x y z) : TransAt (mixedCmp f) x y z := by
  have htrans : ∀ {u v w : β}, (compare u v).isLE → (compare v w).isLE → (compare u w).isLE :=
    Std.TransOrd.isLE_trans
  rcases x with a | b <;> rcases y with a' | b' <;> rcases z with a'' | b'' <;> intro hxy hyz
  · exact Std.TransOrd.isLE_trans hxy hyz
  · exact htrans (hf _ _ hxy) hyz
  · -- the one pattern that has the exact comparison in the conclusion only
    cases hcmp : compare a a'' with
    | lt | eq => simp [mixedCmp, hcmp]
    | gt =>
      have hback : (compare (f a'') (f a)).isLE :=
        hf _ _ (by rw [Std.OrientedOrd.eq_swap (a := a'') (b := a), hcmp]; rfl)
      have hab : compare (f a) b' = .eq := Std.OrientedCmp.isLE_antisymm hxy (htrans hyz hback)
      have hab'' : compare (f a'') b' = .eq := Std.OrientedCmp.isLE_antisymm (htrans hback hxy) hyz
      exact absurd ⟨a, b', a'', rfl, rfl, rfl, by simp [hcmp], hab, hab''⟩ h
  · exact htrans hxy hyz
  · exact htrans hxy (hf _ _ hyz)
  · exact htrans hxy hyz
  · exact htrans hxy hyz
  · exact htrans hxy hyz

end Mixed

end MixedOrder
