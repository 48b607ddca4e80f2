import TransactionDB.Lib.MixedOrder

/-!
# Ranked — comparisons of finitely many things as comparisons of numbers

A comparison that is a total preorder on the members of a list compares them as numbers: a member's rank
is the number of members in front of it (`exists_rank`). A proof about an algorithm that compares members
only can then argue about ranks.
-/

namespace Ranked

open MixedOrder List

variable {α : Type*} {cmp : α → α → Ordering} {l : List α} {a b c : α}

/-- The comparison is a total preorder on the members of the list. -/
def TotalOn (cmp : α → α → Ordering) (l : List α) : Prop :=
  ∀ a ∈ l, ∀ b ∈ l, ∀ c ∈ l, TransAt cmp a b c

theorem TotalOn.mono {l' : List α} (h : TotalOn cmp l') (hsub : ∀ x ∈ l, x ∈ l') : TotalOn cmp l :=
  fun a ha b hb c hc => h a (hsub a ha) b (hsub b hb) c (hsub c hc)

/-- On the members of the list, the comparison is that of their ranks. -/
def IsRank (cmp : α → α → Ordering) (l : List α) (rank : α → Nat) : Prop :=
  ∀ a ∈ l, ∀ b ∈ l, cmp a b = compare (rank a) (rank b)

namespace IsRank

variable {rank : α → Nat} (h : IsRank cmp l rank) (ha : a ∈ l) (hb : b ∈ l)

include h ha hb

theorem eq_lt : cmp a b = .lt ↔ rank a < rank b := by rw [h a ha b hb, Nat.compare_eq_lt]

theorem eq_gt : cmp a b = .gt ↔ rank b < rank a := by rw [h a ha b hb, Nat.compare_eq_gt]

theorem eq_eq : cmp a b = .eq ↔ rank a = rank b := by rw [h a ha b hb, Nat.compare_eq_eq]

theorem ne_gt : cmp a b ≠ .gt ↔ rank a ≤ rank b := by rw [Ne, h.eq_gt ha hb, Nat.not_lt]

theorem ne_lt : cmp a b ≠ .lt ↔ rank b ≤ rank a := by rw [Ne, h.eq_lt ha hb, Nat.not_lt]

end IsRank

section Order

variable [Std.OrientedCmp cmp] (h : TotalOn cmp l)

include h

/-- What is before one member is before each member that is not before that one. -/
theorem TotalOn.lt_of_lt_of_isLE (ha : a ∈ l) (hb : b ∈ l) (hc : c ∈ l) (hab : cmp a b = .lt)
    (hbc : (cmp b c).isLE) : cmp a c = .lt := by
  have hac : (cmp a c).isLE := h a ha b hb c hc (by simp [hab]) hbc
  cases hcmp : cmp a c with
  | lt => rfl
  | gt => simp [hcmp] at hac
  | eq =>
    -- otherwise `b ≤ c ≤ a`
    have hca : cmp c a = .eq := Std.OrientedCmp.eq_symm hcmp
    have hba : (cmp b a).isLE := h b hb c hc a ha hbc (by simp [hca])
    rw [Std.OrientedCmp.gt_iff_lt.mpr hab] at hba
    cases hba

theorem countP_lt_of_lt (ha : a ∈ l) (hb : b ∈ l) (hab : cmp a b = .lt) :
    l.countP (fun y => cmp y a = .lt) < l.countP (fun y => cmp y b = .lt) := by
  have hself : cmp a a = .eq := Std.ReflCmp.compare_self
  have hsplit : l.countP (fun y => cmp y a = .lt) =
      (l.filter fun y => cmp y b = .lt).countP (fun y => cmp y a = .lt) := by
    rw [countP_filter]
    refine countP_congr fun y hy => ?_
    simp only [decide_eq_true_eq, Bool.and_eq_true, iff_self_and]
    exact fun hya => h.lt_of_lt_of_isLE hy ha hb hya (by simp [hab])
  rw [hsplit, countP_eq_length_filter (l := l), countP_eq_length_filter]
  refine length_filter_lt_length_iff_exists.mpr ⟨a, ?_, by simp [hself]⟩
  exact mem_filter.mpr ⟨ha, by simpa using hab⟩

theorem countP_le_of_isLE (ha : a ∈ l) (hb : b ∈ l) (hab : (cmp a b).isLE) :
    l.countP (fun y => cmp y a = .lt) ≤ l.countP (fun y => cmp y b = .lt) := by
  refine countP_mono_left fun y hy hya => ?_
  simp only [decide_eq_true_eq] at hya ⊢
  exact h.lt_of_lt_of_isLE hy ha hb hya hab

theorem exists_rank : ∃ rank : α → Nat, IsRank cmp l rank := by
  refine ⟨fun x => l.countP fun y => cmp y x = .lt, fun a ha b hb => ?_⟩
  cases hab : cmp a b with
  | lt => exact (Nat.compare_eq_lt.mpr (countP_lt_of_lt h ha hb hab)).symm
  | gt => exact (Nat.compare_eq_gt.mpr (countP_lt_of_lt h hb ha (Std.OrientedCmp.lt_of_gt hab))).symm
  | eq =>
    have hba : cmp b a = .eq := Std.OrientedCmp.eq_symm hab
    refine (Nat.compare_eq_eq.mpr (Nat.le_antisymm ?_ ?_)).symm
    · exact countP_le_of_isLE h ha hb (by simp [hab])
    · exact countP_le_of_isLE h hb ha (by simp [hba])

end Order

/-- A comparison by one thing and then by another has ranks if both have. -/
theorem IsRank.lex {cmp₁ cmp₂ : α → α → Ordering} {r₁ r₂ : α → Nat} (h₁ : IsRank cmp₁ l r₁)
    (h₂ : IsRank cmp₂ l r₂) :
    ∃ rank : α → Nat, IsRank (fun a b => (cmp₁ a b).then (cmp₂ a b)) l rank ∧
      (∀ a ∈ l, ∀ b ∈ l, rank a ≤ rank b ↔ r₁ a < r₁ b ∨ r₁ a = r₁ b ∧ r₂ a ≤ r₂ b) := by
  obtain ⟨n, hn⟩ : ∃ n, ∀ a ∈ l, r₂ a < n := by
    refine ⟨(l.map r₂).sum + 1, fun a ha => Nat.lt_succ_of_le ?_⟩
    exact le_sum_of_mem (mem_map_of_mem ha)
  -- the first rank counts in steps that the second one does not reach
  have hlt : ∀ a ∈ l, ∀ b, r₁ a < r₁ b → r₁ a * n + r₂ a < r₁ b * n + r₂ b := by
    intro a ha b hab
    have hstep : (r₁ a + 1) * n ≤ r₁ b * n := Nat.mul_le_mul_right n hab
    have := hn a ha
    rw [Nat.add_mul, Nat.one_mul] at hstep
    omega
  refine ⟨fun a => r₁ a * n + r₂ a, fun a ha b hb => ?_, fun a ha b hb => ?_⟩
  · dsimp only
    rw [h₁ a ha b hb, h₂ a ha b hb]
    rcases Nat.lt_trichotomy (r₁ a) (r₁ b) with hab | hab | hab
    · rw [Nat.compare_eq_lt.mpr hab, Nat.compare_eq_lt.mpr (hlt a ha b hab)]
      rfl
    · rw [Nat.compare_eq_eq.mpr hab, hab]
      simp only [Ordering.then, compare, compareOfLessAndEq, Nat.add_lt_add_iff_left, Nat.add_left_cancel_iff]
    · rw [Nat.compare_eq_gt.mpr hab, Nat.compare_eq_gt.mpr (hlt b hb a hab)]
      rfl
  · dsimp only
    rcases Nat.lt_trichotomy (r₁ a) (r₁ b) with hab | hab | hab
    · have := hlt a ha b hab
      omega
    · rw [hab]
      omega
    · have := hlt b hb a hab
      omega

end Ranked
