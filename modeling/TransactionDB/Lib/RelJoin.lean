import Mathlib.Tactic

/-!
# RelJoin — relational joins with padding

The join of two multisets of rows: the pairs that satisfy a condition and, if asked for, the rows of one
side without a partner, each padded for the other side. The nested loop that computes it goes over the left
rows and writes the padded left row behind its pairs; the right rows without a partner come last
(`coe_nestedLoop`).
-/

namespace RelJoin

open List

variable {α β γ : Type*}

/-- How two rows become one, and how a row without a partner does. -/
structure Shape (α β γ : Type*) where
  pair : α → β → γ
  padRight : α → γ
  padLeft : β → γ

/-- The join of two multisets. -/
def join (sh : Shape α β γ) (keepLeft keepRight : Bool) (cond : α → β → Bool) (s : Multiset α)
    (t : Multiset β) : Multiset γ :=
  ((s ×ˢ t).filter fun x => cond x.1 x.2).map (fun x => sh.pair x.1 x.2) +
    (if keepLeft then (s.filter fun a => ∀ b ∈ t, cond a b = false).map sh.padRight else 0) +
    (if keepRight then (t.filter fun b => ∀ a ∈ s, cond a b = false).map sh.padLeft else 0)

/-- What a left row gives: its pairs, or the row padded. -/
def leftRow (sh : Shape α β γ) (keepLeft : Bool) (cond : α → β → Bool) (rs : List β) (l : α) : List γ :=
  (rs.filter (cond l)).map (sh.pair l) ++
    if keepLeft ∧ ∀ r ∈ rs, cond l r = false then [sh.padRight l] else []

/-- The nested loop. -/
def nestedLoop (sh : Shape α β γ) (keepLeft keepRight : Bool) (cond : α → β → Bool) (ls : List α)
    (rs : List β) : List γ :=
  ls.flatMap (leftRow sh keepLeft cond rs) ++
    if keepRight then (rs.filter fun r => ∀ l ∈ ls, cond l r = false).map sh.padLeft else []

theorem flatMap_pairs (f : α → β → γ) (cond : α → β → Bool) (ls : List α) (rs : List β) :
    ls.flatMap (fun l => (rs.filter (cond l)).map (f l)) =
      ((ls ×ˢ rs).filter fun x => cond x.1 x.2).map fun x => f x.1 x.2 := by
  induction ls with
  | nil => rfl
  | cons l ls ih =>
    rw [flatMap_cons, ih, product_cons, filter_append, map_append, filter_map,
      map_map]
    rfl

theorem flatMap_ite (f : α → γ) (p : α → Prop) [DecidablePred p] (ls : List α) :
    ls.flatMap (fun l => if p l then [f l] else []) = (ls.filter p).map f := by
  induction ls with
  | nil => rfl
  | cons l ls ih =>
    rw [flatMap_cons, ih]
    by_cases hl : p l <;> simp [hl]

/-- **The nested loop computes the join.** -/
theorem coe_nestedLoop (sh : Shape α β γ) (keepLeft keepRight : Bool) (cond : α → β → Bool) (ls : List α)
    (rs : List β) :
    (nestedLoop sh keepLeft keepRight cond ls rs : Multiset γ) = join sh keepLeft keepRight cond ls rs := by
  have hleft : (ls.flatMap (leftRow sh keepLeft cond rs)).Perm
      (ls.flatMap (fun l => (rs.filter (cond l)).map (sh.pair l)) ++
        ls.flatMap fun l => if keepLeft ∧ ∀ r ∈ rs, cond l r = false then [sh.padRight l] else []) :=
    (flatMap_append_perm ls _ _).symm
  rw [nestedLoop, ← Multiset.coe_add, Multiset.coe_eq_coe.mpr hleft, ← Multiset.coe_add, flatMap_pairs,
    flatMap_ite, join]
  refine congrArg₂ (· + ·) (congrArg₂ (· + ·) ?_ ?_) ?_
  · rw [Multiset.coe_product, Multiset.filter_coe, Multiset.map_coe]
    simp
  · cases keepLeft <;> simp
  · cases keepRight <;> simp

end RelJoin
