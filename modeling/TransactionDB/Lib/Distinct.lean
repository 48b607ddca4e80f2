import Mathlib.Tactic

/-!
# Distinct — the first of each kind

`keepNew` goes over a list and keeps what is equal to nothing kept so far, which is how duplicates are
dropped with a comparison only. What is kept has no duplicates and stands for everything in the list.
Where the comparison is an equivalence on the members, something is kept exactly if nothing in front of it
is equal to it (`firsts_concat`).
-/

namespace Distinct

open List

variable {α β : Type*} {eq : α → α → Bool} {seen l : List α}

/-- What is equal to nothing in `seen` and to nothing kept before. -/
def keepNew (eq : α → α → Bool) : List α → List α → List α
  | _, [] => []
  | seen, x :: xs =>
    if seen.any (eq · x) then keepNew eq seen xs else x :: keepNew eq (seen ++ [x]) xs

/-- The first of each kind. -/
def firsts (eq : α → α → Bool) (l : List α) : List α := keepNew eq [] l

theorem keepNew_sublist (seen l : List α) : (keepNew eq seen l).Sublist l := by
  induction l generalizing seen with
  | nil => exact List.Sublist.slnil
  | cons x xs ih =>
    rw [keepNew]
    split
    · exact (ih seen).cons x
    · exact (ih _).cons_cons x

theorem firsts_sublist (l : List α) : (firsts eq l).Sublist l := keepNew_sublist [] l

theorem mem_of_mem_firsts {x : α} (h : x ∈ firsts eq l) : x ∈ l := (firsts_sublist l).subset h

/-- Nothing kept is equal to something seen before. -/
theorem ne_of_mem_keepNew {s x : α} (hs : s ∈ seen) (hx : x ∈ keepNew eq seen l) : eq s x = false := by
  induction l generalizing seen with
  | nil => cases hx
  | cons y ys ih =>
    rw [keepNew] at hx
    split at hx
    · exact ih hs hx
    · next hnew =>
      rcases mem_cons.mp hx with rfl | hx
      · simp only [any_eq_true, not_exists, not_and, Bool.not_eq_true] at hnew
        exact hnew s hs
      · exact ih (mem_append_left _ hs) hx

theorem pairwise_keepNew (seen l : List α) : (keepNew eq seen l).Pairwise fun x y => eq x y = false := by
  induction l generalizing seen with
  | nil => exact List.Pairwise.nil
  | cons x xs ih =>
    rw [keepNew]
    split
    · exact ih seen
    · exact List.Pairwise.cons (fun y hy => ne_of_mem_keepNew (by simp) hy) (ih _)

theorem pairwise_firsts (l : List α) : (firsts eq l).Pairwise fun x y => eq x y = false :=
  pairwise_keepNew [] l

/-- Everything is kept or equal to something that is. -/
theorem exists_of_mem {x : α} (hx : x ∈ l) :
    (∃ s ∈ seen, eq s x) ∨ ∃ y ∈ keepNew eq seen l, y = x ∨ eq y x := by
  induction l generalizing seen with
  | nil => cases hx
  | cons y ys ih =>
    rw [keepNew]
    split
    · next hold =>
      rcases mem_cons.mp hx with rfl | hx
      · exact Or.inl (by simpa using hold)
      · exact ih hx
    · rcases mem_cons.mp hx with rfl | hx
      · exact Or.inr ⟨x, mem_cons_self, Or.inl rfl⟩
      · rcases ih hx with ⟨s, hs, heq⟩ | ⟨z, hz, heq⟩
        · rcases mem_append.mp hs with hs | hs
          · exact Or.inl ⟨s, hs, heq⟩
          · rw [mem_singleton.mp hs] at heq
            exact Or.inr ⟨y, mem_cons_self, Or.inr heq⟩
        · exact Or.inr ⟨z, mem_cons_of_mem _ hz, heq⟩

theorem keepNew_append (seen xs ys : List α) :
    keepNew eq seen (xs ++ ys) = keepNew eq seen xs ++ keepNew eq (seen ++ keepNew eq seen xs) ys := by
  induction xs generalizing seen with
  | nil => simp [keepNew]
  | cons x xs ih =>
    rw [cons_append, keepNew, keepNew]
    split
    · exact ih seen
    · rw [ih, cons_append, append_assoc]
      rfl

theorem firsts_append_singleton (l : List α) (x : α) :
    firsts eq (l ++ [x]) = if (firsts eq l).any (eq · x) then firsts eq l else firsts eq l ++ [x] := by
  have hlast : keepNew eq (firsts eq l) [x] = if (firsts eq l).any (eq · x) then [] else [x] := by
    rw [keepNew]
    rfl
  rw [firsts, keepNew_append, nil_append, ← firsts, hlast]
  split <;> simp

/-! ## Equivalences -/

/-- An equivalence on the members of a list. -/
structure EquivOn (eq : α → α → Bool) (l : List α) : Prop where
  refl : ∀ x ∈ l, eq x x
  symm : ∀ x ∈ l, ∀ y ∈ l, eq x y → eq y x
  trans : ∀ x ∈ l, ∀ y ∈ l, ∀ z ∈ l, eq x y → eq y z → eq x z

theorem EquivOn.mono {l' : List α} (h : EquivOn eq l') (hsub : ∀ x ∈ l, x ∈ l') : EquivOn eq l where
  refl x hx := h.refl x (hsub x hx)
  symm x hx y hy := h.symm x (hsub x hx) y (hsub y hy)
  trans x hx y hy z hz := h.trans x (hsub x hx) y (hsub y hy) z (hsub z hz)

/-- Everything in the list is equal to something kept. -/
theorem EquivOn.exists_first (h : EquivOn eq l) {x : α} (hx : x ∈ l) : ∃ y ∈ firsts eq l, eq y x := by
  rcases @exists_of_mem α eq [] l x hx with ⟨s, hs, -⟩ | ⟨y, hy, rfl | heq⟩
  · cases hs
  · exact ⟨y, hy, h.refl y hx⟩
  · exact ⟨y, hy, heq⟩

/-- What is kept stands for all that it was taken from. -/
theorem EquivOn.any_firsts {x : α} (h : EquivOn eq (l ++ [x])) :
    (firsts eq l).any (eq · x) = l.any (eq · x) := by
  have hl : EquivOn eq l := h.mono fun y hy => mem_append_left _ hy
  rw [Bool.eq_iff_iff, any_eq_true, any_eq_true]
  constructor
  · rintro ⟨y, hy, heq⟩
    exact ⟨y, mem_of_mem_firsts hy, heq⟩
  · rintro ⟨y, hy, heq⟩
    obtain ⟨z, hz, hzy⟩ := hl.exists_first hy
    refine ⟨z, hz, h.trans z ?_ y ?_ x (by simp) hzy heq⟩
    · exact mem_append_left _ (mem_of_mem_firsts hz)
    · exact mem_append_left _ hy

/-- Something is kept exactly if nothing in front of it is equal to it. -/
theorem EquivOn.firsts_concat {x : α} (h : EquivOn eq (l ++ [x])) :
    firsts eq (l ++ [x]) = if l.any (eq · x) then firsts eq l else firsts eq l ++ [x] := by
  rw [firsts_append_singleton, h.any_firsts]

/-- Where two members are equal if they have the same label, as many are kept as there are labels. -/
theorem length_firsts [DecidableEq β] {label : α → β}
    (h : ∀ a ∈ l, ∀ b ∈ l, eq a b ↔ label a = label b) :
    (firsts eq l).length = (l.map label).toFinset.card := by
  have hnodup : ((firsts eq l).map label).Nodup := by
    refine pairwise_map.mpr ((pairwise_firsts l).imp_of_mem fun {a b} ha hb hab => ?_)
    rw [Bool.eq_false_iff, Ne, h a (mem_of_mem_firsts ha) b (mem_of_mem_firsts hb)] at hab
    exact hab
  have hset : ((firsts eq l).map label).toFinset = (l.map label).toFinset := by
    ext k
    simp only [mem_toFinset, mem_map]
    constructor
    · rintro ⟨a, ha, rfl⟩
      exact ⟨a, mem_of_mem_firsts ha, rfl⟩
    · rintro ⟨a, ha, rfl⟩
      rcases @exists_of_mem α eq [] l a ha with ⟨s, hs, -⟩ | ⟨b, hb, rfl | heq⟩
      · cases hs
      · exact ⟨b, hb, rfl⟩
      · exact ⟨b, hb, (h b (mem_of_mem_firsts hb) a ha).mp heq⟩
  rw [← hset, toFinset_card_of_nodup hnodup, length_map]

end Distinct
