import Mathlib.Data.List.Nodup
import Mathlib.Tactic

/-!
# Keyed — lists of records found by a key

Records sit in a list and are found by a key, as in a hash chain. The keys are pairwise
different (`Nodup`), so that membership and lookup agree. Each way of changing the list
comes with what it does to lookups.
-/

namespace Keyed

open List

variable {α κ : Type*} [DecidableEq κ] (key : α → κ)

/-- The first record with key `k`. -/
def find (xs : List α) (k : κ) : Option α := xs.find? (fun x => decide (key x = k))

variable {key} {xs : List α} {x : α} {k k' : κ}

theorem key_of_find (h : find key xs k = some x) : key x = k := by
  simpa using find?_some h

theorem mem_of_find (h : find key xs k = some x) : x ∈ xs := mem_of_find?_eq_some h

@[simp] theorem find_nil : find key [] k = none := rfl

theorem find_cons : find key (x :: xs) k = if k = key x then some x else find key xs k := by
  unfold find
  rw [find?_cons]
  by_cases h : key x = k
  · simp [h]
  · simp [h, Ne.symm h]

theorem find_eq_none_iff : find key xs k = none ↔ ∀ x ∈ xs, key x ≠ k := by
  unfold find
  rw [find?_eq_none]
  simp

theorem find_of_mem (hnd : (xs.map key).Nodup) (hx : x ∈ xs) : find key xs (key x) = some x := by
  induction xs with
  | nil => simp at hx
  | cons y ys ih =>
    rw [map_cons, nodup_cons] at hnd
    rw [find_cons]
    rcases mem_cons.mp hx with rfl | hx
    · rw [if_pos rfl]
    · have hne : key x ≠ key y := by
        intro heq
        exact hnd.1 (heq ▸ mem_map_of_mem hx)
      rw [if_neg hne, ih hnd.2 hx]

section

variable {f : α → α} (hf : ∀ x, key (f x) = key x)

include hf

/-- Changing every record without changing its key. -/
theorem find_map :
    find key (xs.map f) k = (find key xs k).map f := by
  induction xs with
  | nil => rfl
  | cons y ys ih =>
    rw [map_cons, find_cons, find_cons, hf y, ih]
    split <;> rfl

omit [DecidableEq κ] in
theorem map_key_map :
    (xs.map f).map key = xs.map key := by
  simp [hf]

/-- Changing the records with one key. -/
theorem find_modify :
    find key (xs.map (fun x => if key x = k then f x else x)) k'
      = if k' = k then (find key xs k').map f else find key xs k' := by
  have hkey : ∀ x, key (if key x = k then f x else x) = key x := by
    intro x
    split
    · exact hf x
    · rfl
  rw [find_map hkey]
  cases hx : find key xs k' with
  | none => simp
  | some x =>
    have := key_of_find hx
    subst this
    by_cases h : key x = k <;> simp [h]

theorem map_key_modify :
    (xs.map (fun x => if key x = k then f x else x)).map key = xs.map key := by
  apply map_key_map
  intro x
  split
  · exact hf x
  · rfl

end

/-- Removing the records with one key. -/
theorem find_remove : find key (xs.filter (fun x => key x ≠ k)) k'
    = if k' = k then none else find key xs k' := by
  induction xs with
  | nil => simp
  | cons y ys ih =>
    rw [filter_cons]
    by_cases hy : key y = k
    · simp only [hy, ne_eq, not_true, decide_false, Bool.false_eq_true, if_false]
      rw [ih, find_cons, hy]
      by_cases hk : k' = k <;> simp [hk]
    · simp only [ne_eq, hy, not_false_eq_true, decide_true, if_true]
      rw [find_cons, find_cons, ih]
      by_cases hk : k' = k
      · subst hk
        simp [Ne.symm hy]
      · simp [hk]

omit [DecidableEq κ] in
theorem nodup_filter {q : α → Bool} (hnd : (xs.map key).Nodup) : ((xs.filter q).map key).Nodup :=
  hnd.sublist (filter_sublist.map key)

/-- Keeping only some of the records. -/
theorem find_filter {q : α → Bool} (hnd : (xs.map key).Nodup) :
    find key (xs.filter q) k = (find key xs k).filter q := by
  induction xs with
  | nil => rfl
  | cons y ys ih =>
    rw [map_cons, nodup_cons] at hnd
    rw [filter_cons, find_cons]
    by_cases hk : k = key y
    · subst hk
      -- no later record has this key
      have hnone : find key ys (key y) = none := by
        rw [find_eq_none_iff]
        intro x hx heq
        exact hnd.1 (heq ▸ mem_map_of_mem hx)
      by_cases hq : q y = true
      · simp [hq, find_cons, Option.filter]
      · simp [hq, ih hnd.2, hnone, Option.filter]
    · by_cases hq : q y = true
      · rw [if_pos hq, find_cons, if_neg hk, if_neg hk, ih hnd.2]
      · rw [if_neg hq, if_neg hk, ih hnd.2]

/-- With unique keys the order does not matter. -/
theorem find_perm {ys : List α} (hnd : (xs.map key).Nodup) (hperm : xs.Perm ys) :
    find key xs k = find key ys k := by
  have hnd' : (ys.map key).Nodup := (hperm.map key).nodup_iff.mp hnd
  cases hf : find key xs k with
  | none =>
    rw [find_eq_none_iff] at hf
    exact (find_eq_none_iff.mpr (fun y hy => hf y (hperm.mem_iff.mpr hy))).symm
  | some x =>
    have hkey := key_of_find hf
    subst hkey
    exact (find_of_mem hnd' (hperm.mem_iff.mp (mem_of_find hf))).symm

/-- Records stored as pairs of the key and a value. -/
theorem find_map_pair {β : Type*} (key : α → κ) (f : α → β) :
    find Prod.fst (xs.map (fun x => (key x, f x))) k
      = (find key xs k).map (fun x => (key x, f x)) := by
  induction xs with
  | nil => rfl
  | cons y ys ih =>
    rw [map_cons, find_cons, find_cons, ih]
    split <;> rfl

omit [DecidableEq κ] in
/-- Walking the buckets of a hash table visits every record once. -/
theorem buckets_perm (f : α → Nat) (n : Nat) (xs : List α) :
    ((List.range n).flatMap (fun b => xs.filter (fun x => f x = b))).Perm
      (xs.filter (fun x => f x < n)) := by
  induction n with
  | zero => simp
  | succ n ih =>
    rw [range_succ, flatMap_append, flatMap_singleton]
    have hsplit := filter_append_perm (fun x => decide (f x < n)) (xs.filter (fun x => f x < n + 1))
    rw [filter_filter, filter_filter] at hsplit
    refine List.Perm.trans (List.Perm.append ?_ ?_) hsplit
    · refine ih.trans (List.Perm.of_eq (filter_congr (fun x _ => ?_)))
      by_cases h : f x < n
      · simp [h]
        omega
      · simp [h]
    · refine List.Perm.of_eq (filter_congr (fun x _ => ?_))
      by_cases h : f x = n
      · simp [h]
      · simp [h]
        omega

end Keyed
