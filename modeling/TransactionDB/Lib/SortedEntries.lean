import Mathlib.Tactic
import Mathlib.Data.Set.Basic

/-!
# SortedEntries — finite maps under a comparison of keys

Keys that compare equal are one key. The map is a set of entries; a list of entries in strictly
increasing order represents it, and the operations on the list are local: they can be done in the
part of the list the key belongs to.
-/

namespace SortedEntries

open List

variable {κ β : Type*} (cmp : κ → κ → Ordering)

variable {l ys xs : List (κ × β)} {e : κ × β}

/-! ## The map -/

/-- The entry becomes the one of its key. -/
def put (e : κ × β) (m : Set (κ × β)) : Set (κ × β) := insert e { p ∈ m | cmp p.1 e.1 ≠ .eq }

/-- The key has no entry. -/
def del (k : κ) (m : Set (κ × β)) : Set (κ × β) := { p ∈ m | cmp p.1 k ≠ .eq }

/-- The key has an entry. -/
def Has (k : κ) (m : Set (κ × β)) : Prop := ∃ p ∈ m, cmp p.1 k = .eq

/-! ## The list -/

/-- The keys in front of `e`, then `e`, then the keys behind it. -/
def upsert (e : κ × β) (l : List (κ × β)) : List (κ × β) :=
  l.filter (fun p => cmp p.1 e.1 = .lt) ++ e :: l.filter (fun p => cmp p.1 e.1 = .gt)

/-- The entries of the other keys. -/
def erase (k : κ) (l : List (κ × β)) : List (κ × β) := l.filter (fun p => cmp p.1 k ≠ .eq)

/-- The keys are strictly increasing. -/
def Increasing (l : List (κ × β)) : Prop := l.Pairwise (fun p q => cmp p.1 q.1 = .lt)

variable {cmp}

theorem mem_upsert {p : κ × β} :
    p ∈ upsert cmp e l ↔ p ∈ put cmp e { q | q ∈ l } := by
  simp only [upsert, put, mem_append, mem_cons, mem_filter, decide_eq_true_eq,
    Set.mem_insert_iff, Set.mem_ofPred_eq]
  cases cmp p.1 e.1 <;> simp [or_comm]

theorem mem_erase {k : κ} {p : κ × β} :
    p ∈ erase cmp k l ↔ p ∈ del cmp k { q | q ∈ l } := by
  simp [erase, del]

/-- In a list whose first part is in front of the key, only the rest changes. -/
theorem upsert_append_right (hxs : ∀ p ∈ xs, cmp p.1 e.1 = .lt) :
    upsert cmp e (xs ++ ys) = xs ++ upsert cmp e ys := by
  have hlt : xs.filter (fun p => cmp p.1 e.1 = .lt) = xs :=
    filter_eq_self.mpr fun p hp => by simp [hxs p hp]
  have hgt : xs.filter (fun p => cmp p.1 e.1 = .gt) = [] :=
    filter_eq_nil_iff.mpr fun p hp => by simp [hxs p hp]
  simp only [upsert, filter_append, hlt, hgt, nil_append, append_assoc]

/-- In a list whose last part is behind the key, only the rest changes. -/
theorem upsert_append_left (hys : ∀ p ∈ ys, cmp p.1 e.1 = .gt) :
    upsert cmp e (xs ++ ys) = upsert cmp e xs ++ ys := by
  have hlt : ys.filter (fun p => cmp p.1 e.1 = .lt) = [] :=
    filter_eq_nil_iff.mpr fun p hp => by simp [hys p hp]
  have hgt : ys.filter (fun p => cmp p.1 e.1 = .gt) = ys :=
    filter_eq_self.mpr fun p hp => by simp [hys p hp]
  simp only [upsert, filter_append, hlt, hgt, append_nil, cons_append,
    append_assoc]

@[simp] theorem upsert_nil (e : κ × β) : upsert cmp e [] = [e] := rfl

theorem upsert_cons_eq {q : κ × β} (h : cmp q.1 e.1 = .eq) (ys : List (κ × β)) :
    upsert cmp e (q :: ys) = upsert cmp e ys := by
  simp [upsert, h]

/-- The entry comes in front of keys that are behind it. -/
theorem upsert_of_gt (hys : ∀ p ∈ ys, cmp p.1 e.1 = .gt) :
    upsert cmp e ys = e :: ys := by
  have h : upsert cmp e ([] ++ ys) = upsert cmp e [] ++ ys := upsert_append_left hys
  exact h

theorem increasing_upsert [Std.TransCmp cmp] (h : Increasing cmp l) : Increasing cmp (upsert cmp e l) := by
  have hlt : ∀ p ∈ l.filter (fun p => cmp p.1 e.1 = .lt), cmp p.1 e.1 = .lt := by
    intro p hp
    simpa using (mem_filter.mp hp).2
  have hgt : ∀ p ∈ l.filter (fun p => cmp p.1 e.1 = .gt), cmp e.1 p.1 = .lt := by
    intro p hp
    exact Std.OrientedCmp.gt_iff_lt.mp (by simpa using (mem_filter.mp hp).2)
  rw [Increasing, upsert, pairwise_append, pairwise_cons]
  refine ⟨h.filter _, ⟨hgt, h.filter _⟩, fun p hp q hq => ?_⟩
  rcases mem_cons.mp hq with rfl | hq
  · exact hlt p hp
  · exact Std.TransCmp.lt_trans (hlt p hp) (hgt q hq)

theorem erase_append (k : κ) (xs ys : List (κ × β)) :
    erase cmp k (xs ++ ys) = erase cmp k xs ++ erase cmp k ys := filter_append ..

theorem erase_cons_eq {k : κ} {q : κ × β} (h : cmp q.1 k = .eq) (ys : List (κ × β)) :
    erase cmp k (q :: ys) = erase cmp k ys := by
  simp [erase, h]

theorem erase_eq_self {k : κ} (h : ∀ p ∈ xs, cmp p.1 k ≠ .eq) :
    erase cmp k xs = xs := filter_eq_self.mpr fun p hp => by simpa using h p hp

end SortedEntries
