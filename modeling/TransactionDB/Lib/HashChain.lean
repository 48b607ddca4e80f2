import TransactionDB.Lib.Keyed

/-!
# HashChain — hash tables with chains

Records with a key, in chains: each record is in the chain that its key hashes to, and a lookup
walks that chain only. In a well-formed table (`WF`) no chain has two records with one key, so that
a table is the same as a partial function from keys to records. Each way of changing the table
comes with what it does to lookups.
-/

namespace HashChain

open List

variable {α κ : Type*} [DecidableEq κ] {n : Nat}

/-- How records are found. -/
structure Hashing (α κ : Type*) (n : Nat) where
  key : α → κ
  hash : κ → Fin n

/-- The chains. -/
abbrev Chains (α : Type*) (n : Nat) := Fin n → List α

namespace Hashing

variable (h : Hashing α κ n)

/-- The first record of the chain with the key. -/
def lookup (t : Chains α n) (k : κ) : Option α := Keyed.find h.key (t (h.hash k)) k

/-- A new record goes to the head of its chain. -/
def add (t : Chains α n) (x : α) : Chains α n :=
  Function.update t (h.hash (h.key x)) (x :: t (h.hash (h.key x)))

/-- The record with the key is changed in place. -/
def modify (t : Chains α n) (k : κ) (f : α → α) : Chains α n :=
  Function.update t (h.hash k) ((t (h.hash k)).map fun x => if h.key x = k then f x else x)

/-- Every record is in the chain of its key, and is the only one with it. -/
structure WF (t : Chains α n) : Prop where
  place : ∀ b, ∀ x ∈ t b, h.hash (h.key x) = b
  nodup : ∀ b, ((t b).map h.key).Nodup

variable {h} {t : Chains α n} {k k' : κ}

omit [DecidableEq κ] in
theorem wf_empty : h.WF (fun _ => []) := ⟨fun _ _ hx => absurd hx not_mem_nil, fun _ => .nil⟩

theorem lookup_add (x : α) :
    h.lookup (h.add t x) k = if k = h.key x then some x else h.lookup t k := by
  unfold lookup add
  by_cases hk : k = h.key x
  · subst hk
    rw [Function.update_self, Keyed.find_cons]
  · rw [if_neg hk]
    by_cases hb : h.hash k = h.hash (h.key x)
    · rw [hb, Function.update_self, Keyed.find_cons, if_neg hk]
    · rw [Function.update_of_ne hb]

/-- A record with a new key. -/
theorem WF.add (hwf : h.WF t) {x : α} (hnew : h.lookup t (h.key x) = none) : h.WF (h.add t x) := by
  refine ⟨fun b y hy => ?_, fun b => ?_⟩
  · by_cases hb : b = h.hash (h.key x)
    · subst hb
      rw [Hashing.add, Function.update_self] at hy
      rcases mem_cons.mp hy with rfl | hy
      · rfl
      · exact hwf.place _ y hy
    · rw [Hashing.add, Function.update_of_ne hb] at hy
      exact hwf.place b y hy
  · by_cases hb : b = h.hash (h.key x)
    · subst hb
      rw [Hashing.add, Function.update_self, map_cons, nodup_cons]
      refine ⟨fun hmem => ?_, hwf.nodup _⟩
      obtain ⟨y, hy, hkey⟩ := mem_map.mp hmem
      exact Keyed.find_eq_none_iff.mp hnew y hy hkey
    · rw [Hashing.add, Function.update_of_ne hb]
      exact hwf.nodup b

theorem lookup_modify {f : α → α} (hf : ∀ x, h.key (f x) = h.key x) :
    h.lookup (h.modify t k f) k' = if k' = k then (h.lookup t k').map f else h.lookup t k' := by
  unfold lookup modify
  by_cases hb : h.hash k' = h.hash k
  · rw [hb, Function.update_self, Keyed.find_modify hf]
  · have hne : k' ≠ k := fun heq => hb (heq ▸ rfl)
    rw [Function.update_of_ne hb, if_neg hne]

omit [DecidableEq κ] in
/-- Changing records without changing keys. -/
theorem WF.of_keys (hwf : h.WF t) {t' : Chains α n} (hkeys : ∀ b, (t' b).map h.key = (t b).map h.key) :
    h.WF t' := by
  refine ⟨fun b x hx => ?_, fun b => hkeys b ▸ hwf.nodup b⟩
  have hmem : h.key x ∈ (t b).map h.key := hkeys b ▸ mem_map_of_mem hx
  obtain ⟨y, hy, hkey⟩ := mem_map.mp hmem
  exact hkey ▸ hwf.place b y hy

theorem WF.modify (hwf : h.WF t) (k : κ) {f : α → α} (hf : ∀ x, h.key (f x) = h.key x) :
    h.WF (h.modify t k f) := by
  refine hwf.of_keys fun b => ?_
  by_cases hb : b = h.hash k
  · subst hb
    rw [Hashing.modify, Function.update_self, Keyed.map_key_modify hf]
  · rw [Hashing.modify, Function.update_of_ne hb]

/-- A walk over all chains. -/
theorem lookup_map {f : α → α} (hf : ∀ x, h.key (f x) = h.key x) :
    h.lookup (fun b => (t b).map f) k = (h.lookup t k).map f :=
  Keyed.find_map hf

omit [DecidableEq κ] in
theorem WF.map (hwf : h.WF t) {f : α → α} (hf : ∀ x, h.key (f x) = h.key x) :
    h.WF (fun b => (t b).map f) :=
  hwf.of_keys fun _ => Keyed.map_key_map hf

end Hashing

end HashChain
