import TransactionDB.Lib.Ranked
import TransactionDB.Value.Order

/-!
# TransactionDB — keys of ORDER BY

`sort_cmp` of `src/sql/tdb_exec.c`, `orderkey_cmp` of `src/sql/tdb_exec_select.inc` and `sortkey_cmp` of
`src/sql/tdb_exec_stream.inc` are one function: column after column, the other way round for DESC, up to the
first column that differs. Where the comparison of values is a total preorder on the values of some keys, so
is this one on the keys (`totalOn_keys`).
-/

namespace Tdb.Sql

open MixedOrder Ranked List

/-- The columns of two keys, up to the first that differs. -/
def keyCmp (desc : List Bool) (a b : List Value) : Ordering :=
  compareCols (desc.map (KeyCol.mk .binary)) a b

/-- `sort_cmp`. -/
def sortCmp (desc : List Bool) : List Value → List Value → Ordering := keyCmp desc

/-- `orderkey_cmp`. -/
def orderkeyCmp (desc : List Bool) : List Value → List Value → Ordering := keyCmp desc

/-- `sortkey_cmp`. -/
def sortkeyCmp (desc : List Bool) : List Value → List Value → Ordering := keyCmp desc

theorem keyCmp_cons (d : Bool) (desc : List Bool) (x y : Value) (a b : List Value) :
    keyCmp (d :: desc) (x :: a) (y :: b) =
      (if d then (valueCompare x y .binary).swap else valueCompare x y .binary).then (keyCmp desc a b) :=
  rfl

theorem keyCmp_swap : ∀ (desc : List Bool) (a b : List Value), keyCmp desc a b = (keyCmp desc b a).swap
  | [], _, _ => rfl
  | _ :: _, [], [] => rfl
  | _ :: _, [], _ :: _ => rfl
  | _ :: _, _ :: _, [] => rfl
  | d :: desc, x :: a, y :: b => by
    rw [keyCmp_cons, keyCmp_cons, Ordering.swap_then, ← keyCmp_swap desc a b, valueCompare_swap x y]
    split <;> rfl

instance (desc : List Bool) : Std.OrientedCmp (keyCmp desc) where
  eq_swap := keyCmp_swap desc _ _

/-- A rank, turned round for DESC. -/
def directed (d : Bool) (r : Nat) : Int := if d then -(r : Int) else r

theorem compare_directed (d : Bool) (r s : Nat) :
    compare (directed d r) (directed d s) = if d then (compare r s).swap else compare r s := by
  unfold directed
  rcases lt_trichotomy r s with h | rfl | h
  · rw [Nat.compare_eq_lt.mpr h]
    cases d
    · exact Int.compare_eq_lt.mpr (by simpa using h)
    · exact Int.compare_eq_gt.mpr (by simpa using h)
  · simp
  · rw [Nat.compare_eq_gt.mpr h]
    cases d
    · exact Int.compare_eq_gt.mpr (by simpa using h)
    · exact Int.compare_eq_lt.mpr (by simpa using h)

/-- The ranks of the values of a key. -/
def keyRanks (rank : Value → Nat) (desc : List Bool) (key : List Value) : List Int :=
  List.zipWith (fun d v => directed d (rank v)) desc key

theorem keyRanks_cons (rank : Value → Nat) (d : Bool) (desc : List Bool) (v : Value) (key : List Value) :
    keyRanks rank (d :: desc) (v :: key) = directed d (rank v) :: keyRanks rank desc key := rfl

theorem keyCmp_eq_compare {rank : Value → Nat} {vals : List Value}
    (hrank : IsRank (valueCompare · · .binary) vals rank) : ∀ {desc : List Bool} {a b : List Value},
    a.length = desc.length → b.length = desc.length → (∀ v ∈ a, v ∈ vals) → (∀ v ∈ b, v ∈ vals) →
    keyCmp desc a b = compare (keyRanks rank desc a) (keyRanks rank desc b)
  | [], a, b, _, _, _, _ => rfl
  | d :: desc, [], _, ha, _, _, _ => by simp at ha
  | d :: desc, _ :: _, [], _, hb, _, _ => by simp at hb
  | d :: desc, x :: a, y :: b, ha, hb, hax, hby => by
    have hrest := keyCmp_eq_compare hrank (by simpa using ha) (by simpa using hb)
      (forall_mem_cons.mp hax).2 (forall_mem_cons.mp hby).2
    have hxy : valueCompare x y .binary = compare (rank x) (rank y) :=
      hrank x (hax x mem_cons_self) y (hby y mem_cons_self)
    rw [keyCmp_cons, hrest, hxy, keyRanks_cons, keyRanks_cons, List.compare_cons_cons, compare_directed]

/-- **Where the values of some keys are totally preordered, so are the keys.** -/
theorem totalOn_keys {desc : List Bool} {keys : List (List Value)}
    (h : TotalOn (valueCompare · · .binary) keys.flatten) (hlen : ∀ k ∈ keys, k.length = desc.length) :
    TotalOn (keyCmp desc) keys := by
  obtain ⟨rank, hrank⟩ := exists_rank h
  have hcmp : ∀ a ∈ keys, ∀ b ∈ keys,
      keyCmp desc a b = compare (keyRanks rank desc a) (keyRanks rank desc b) := fun a ha b hb =>
    keyCmp_eq_compare hrank (hlen a ha) (hlen b hb) (fun v hv => mem_flatten_of_mem ha hv)
      fun v hv => mem_flatten_of_mem hb hv
  intro a ha b hb c hc
  exact TransAt.ofMap (keyRanks rank desc) (hcmp a ha b hb) (hcmp b hb c hc) (hcmp a ha c hc)
    (TransAt.of_transCmp _ _ _)

end Tdb.Sql
