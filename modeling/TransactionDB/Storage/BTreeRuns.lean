import TransactionDB.Storage.BTreeMap

/-!
# TransactionDB — runs of a B-tree

Any sequence of insertions and removals on a fresh tree, at whose splits both halves fit, does what
it does to a finite map: the entries below the root are those of the map, and the answers are the
answers of the map.

`bt_cmp` of a table tree is the order of the rowids.
-/

namespace Tdb.BTree

open SlottedPage SortedEntries BigEndian List

variable {ps : Nat} {cmp : Bytes → Bytes → Ordering}

/-! ## The order of the rowids -/

/-- `memcmp` of words of one length compares the numbers they write. -/
theorem memcmp_eq_compare : ∀ {a b : Bytes}, a.length = b.length →
    memcmp a b = compare (beVal a) (beVal b)
  | [], [], _ => rfl
  | x :: a, y :: b, h => by
    have hlen : a.length = b.length := by simpa using h
    have ha := beVal_lt a
    have hb := beVal_lt b
    rw [hlen] at ha
    rw [memcmp, beVal, beVal, hlen]
    split
    · next hxy =>
      subst hxy
      rw [memcmp_eq_compare hlen]
      simp only [Nat.compare_eq_ite_lt, Nat.add_lt_add_iff_left]
    · next hxy =>
      -- the first byte decides
      have hne : x.toNat ≠ y.toNat := fun he => hxy (UInt8.toNat_inj.mp he)
      rw [UInt8.compare_eq_toNat_compare_toNat]
      rcases Nat.lt_or_gt_of_ne hne with hlt | hgt
      · have hmul : (x.toNat + 1) * 256 ^ b.length ≤ y.toNat * 256 ^ b.length :=
          Nat.mul_le_mul_right _ hlt
        rw [Nat.add_mul] at hmul
        rw [Nat.compare_eq_lt.mpr hlt, Eq.comm, Nat.compare_eq_lt]
        omega
      · have hmul : (y.toNat + 1) * 256 ^ b.length ≤ x.toNat * 256 ^ b.length :=
          Nat.mul_le_mul_right _ hgt
        rw [Nat.add_mul] at hmul
        rw [Nat.compare_eq_gt.mpr hgt, Eq.comm, Nat.compare_eq_gt]
        omega

theorem btCmp_table_eq (a b : Bytes) :
    btCmp .table a b = compare (beVal (keyWord a)) (beVal (keyWord b)) :=
  memcmp_eq_compare (by simp [keyWord])

instance instTransCmpTable : Std.TransCmp (btCmp .table) := by
  have heq : btCmp .table = compareOn fun a => beVal (keyWord a) := by
    funext a b
    exact btCmp_table_eq a b
  rw [heq]
  infer_instance

theorem beVal_rowidToKey (a : UInt64) : beVal (keyWord (rowidToKey a)) = a.toNat := by
  have hword : keyWord (rowidToKey a) = rowidToKey a := by
    rw [keyWord, take_append_of_le_length (by simp [rowidToKey]),
      take_of_length_le (by simp [rowidToKey])]
  have ha : a.toNat < 2 ^ 64 := a.toNat_lt
  rw [hword, rowidToKey, putU64, beVal_append, length_putU32, putU32, putU32, beVal_beBytes,
    beVal_beBytes, UInt32.toNat_ofNat', UInt32.toNat_ofNat']
  omega

/-- Table keys are ordered as the rowids they stand for. -/
theorem btCmp_rowidToKey (a b : UInt64) :
    btCmp .table (rowidToKey a) (rowidToKey b) = compare a.toNat b.toNat := by
  rw [btCmp_table_eq, beVal_rowidToKey, beVal_rowidToKey]

/-! ## The operations on the root -/

/-- The tree is ordered. -/
def Root.Ok (ps : Nat) (cmp : Bytes → Bytes → Ordering) (t : Root) : Prop :=
  TreeOk ps cmp t.depth none none t.tree

theorem ok_create (hps : 512 ≤ ps) (pgno : Nat) : (Root.create ps pgno).Ok ps cmp := by
  have hvalid : Valid (leafGeometry ps) (empty (leafGeometry ps)) :=
    valid_empty (by show 8 ≤ ps; omega)
  have hnone : ∀ c, c ∉ (empty (leafGeometry ps)).cells := fun c hc => not_mem_nil hc
  exact ⟨hvalid, List.Pairwise.nil, fun c hc => absurd hc (hnone c), fun c hc => absurd hc (hnone c)⟩

@[simp] theorem entries_create (ps pgno : Nat) : (Root.create ps pgno).entries = [] := rfl

theorem TreeOk.movedTo {lo hi : Option Bytes} (pgno : Nat) (d : Nat) {t : Tree d}
    (h : TreeOk ps cmp d lo hi t) :
    TreeOk ps cmp d lo hi (Tree.movedTo pgno d t) ∧
      Tree.entries d (Tree.movedTo pgno d t) = Tree.entries d t := by
  cases d with
  | zero => exact ⟨⟨h.valid, h.increasing, h.range, h.admitted⟩, rfl⟩
  | succ d => exact ⟨⟨h.valid, h.chain, h.admitted⟩, rfl⟩

/-- At every split of the insertion both halves fit. -/
def Root.SplitsFit (ps : Nat) (cmp : Bytes → Bytes → Ordering) (t : Root) (key val : Bytes) : Prop :=
  BTree.SplitsFit ps cmp t.depth t.next t.tree (key, val)

instance (ps : Nat) (cmp : Bytes → Bytes → Ordering) (t : Root) (key val : Bytes) :
    Decidable (t.SplitsFit ps cmp key val) := instDecidableSplitsFit ..

section

variable [Std.TransCmp cmp] {t : Root} {key val : Bytes}

theorem Root.Ok.insert (hps : 512 ≤ ps) (h : t.Ok ps cmp) (hadm : Admitted ps key)
    (hfit : t.SplitsFit ps cmp key val) :
    (t.insert ps cmp key val).1 = .ok ∧ (t.insert ps cmp key val).2.Ok ps cmp ∧
      (t.insert ps cmp key val).2.entries = upsert cmp (key, val) t.entries := by
  have hok := insertRec_ok hps (show Admitted ps (key, val).1 from hadm) t.next t.depth h
    (inRange_none key) hfit
  rw [Root.insert, if_pos hadm]
  cases hsplit : (insertRec ps cmp t.depth t.next t.tree (key, val)).split with
  | none =>
    simp only [InsertedOk, hsplit] at hok
    simp only [hsplit]
    exact ⟨trivial, hok⟩
  | some sr =>
    obtain ⟨k, b⟩ := sr
    simp only [InsertedOk, hsplit] at hok
    simp only [hsplit]
    obtain ⟨-, hk, ha, hb, hent⟩ := hok
    generalize insertRec ps cmp t.depth t.next t.tree (key, val) = r at *
    obtain ⟨ha', hent'⟩ := TreeOk.movedTo r.next t.depth ha
    -- the separator fits into the new root
    have hempty : Valid (intGeometry ps (Tree t.depth)) (empty (intGeometry ps (Tree t.depth))) :=
      valid_empty (by show 12 ≤ ps; omega)
    obtain ⟨-, hcells, hvalid⟩ := insertCell_room (i := 0) (c := (Tree.movedTo r.next t.depth r.node, k))
      hempty (Nat.zero_le _) (room_empty_interior hps hk)
    have hcells' : (insertCell (intGeometry ps (Tree t.depth)) (empty (intGeometry ps (Tree t.depth))) 0
        (Tree.movedTo r.next t.depth r.node, k)).2.cells
        = [(Tree.movedTo r.next t.depth r.node, k)] := by
      rw [hcells]
      rfl
    refine ⟨trivial, ⟨hvalid, ?_, ?_⟩, ?_⟩
    · show Chain cmp _ none none (insertCell _ _ 0 _).2.cells b
      rw [hcells']
      exact ⟨⟨by simp, by simp⟩, ha', hb⟩
    · intro c hc
      have hc' : c ∈ (insertCell (intGeometry ps (Tree t.depth))
        (empty (intGeometry ps (Tree t.depth))) 0 (Tree.movedTo r.next t.depth r.node, k)).2.cells := hc
      rw [hcells', mem_singleton] at hc'
      rw [hc']
      exact hk
    · refine (entries_interior t.depth _).trans ?_
      show chainEntries _ (insertCell _ _ 0 _).2.cells b = _
      rw [hcells', Root.entries, ← hent, ← hent']
      simp [chainEntries]

theorem Root.Ok.remove (h : t.Ok ps cmp) (key : Bytes) :
    RemovedOk cmp (fun _ _ t => Root.Ok ps cmp t) Root.entries none none key t (t.remove cmp key) := by
  obtain ⟨hok, hent, hfound, hmissing⟩ := removeRec_ok t.depth h (inRange_none key)
  refine ⟨hok, hent, hfound, fun hfalse => ?_⟩
  have htree := hmissing hfalse
  simp only [Root.remove, htree]

end

/-! ## Runs -/

/-- What is asked of a tree. -/
inductive Op where
  | insert (key val : Bytes)
  | remove (key : Bytes)
  deriving DecidableEq, Repr

/-- What a tree answers. -/
inductive Answer where
  | inserted (rc : Status)
  | removed (found : Bool)
  deriving DecidableEq, Repr

def Op.exec (ps : Nat) (cmp : Bytes → Bytes → Ordering) (t : Root) : Op → Answer × Root
  | .insert key val => ((t.insert ps cmp key val).map .inserted id)
  | .remove key => ((t.remove cmp key).map .removed id)

/-- An accepted key, and both halves fit at every split. -/
def Op.Fits (ps : Nat) (cmp : Bytes → Bytes → Ordering) (t : Root) : Op → Prop
  | .insert key val => Admitted ps key ∧ t.SplitsFit ps cmp key val
  | .remove _ => True

instance (ps : Nat) (cmp : Bytes → Bytes → Ordering) (t : Root) :
    (op : Op) → Decidable (op.Fits ps cmp t)
  | .insert _ _ => inferInstanceAs (Decidable (_ ∧ _))
  | .remove _ => inferInstanceAs (Decidable True)

/-- The operation on the map. -/
def Op.apply (cmp : Bytes → Bytes → Ordering) (m : Set LeafCell) : Op → Set LeafCell
  | .insert key val => put cmp (key, val) m
  | .remove key => del cmp key m

/-- The answer of the map. -/
def Op.Answers (cmp : Bytes → Bytes → Ordering) (m : Set LeafCell) : Op → Answer → Prop
  | .insert _ _, a => a = .inserted .ok
  | .remove key, a => ∃ found, a = .removed found ∧ (found = true ↔ Has cmp key m)

def runOps (ps : Nat) (cmp : Bytes → Bytes → Ordering) : List Op → Root → Root
  | [], t => t
  | op :: ops, t => runOps ps cmp ops (op.exec ps cmp t).2

def OpsFit (ps : Nat) (cmp : Bytes → Bytes → Ordering) : List Op → Root → Prop
  | [], _ => True
  | op :: ops, t => op.Fits ps cmp t ∧ OpsFit ps cmp ops (op.exec ps cmp t).2

instance instDecidableOpsFit (ps : Nat) (cmp : Bytes → Bytes → Ordering) :
    (ops : List Op) → (t : Root) → Decidable (OpsFit ps cmp ops t)
  | [], _ => inferInstanceAs (Decidable True)
  | op :: ops, t =>
    have := instDecidableOpsFit ps cmp ops (op.exec ps cmp t).2
    inferInstanceAs (Decidable (op.Fits ps cmp t ∧ OpsFit ps cmp ops (op.exec ps cmp t).2))

/-- The number of levels above each leaf. -/
def Tree.leafDepths : (d : Nat) → Tree d → List Nat
  | 0, _ => [0]
  | d + 1, t => ((Interior.children t).flatMap (Tree.leafDepths d)).map (· + 1)

/-- The keys of every page are strictly increasing, and every separator bounds its subtrees: what is
below the child in front of it is not behind it, what is below the children behind it is. -/
def Tree.Sorted (cmp : Bytes → Bytes → Ordering) : (d : Nat) → Tree d → Prop
  | 0, t => (Leaf.keys t).Pairwise (fun a b => cmp a b = .lt)
  | d + 1, t =>
    (Interior.keys t).Pairwise (fun a b => cmp a b = .lt) ∧
    (∀ c ∈ Interior.children t, Tree.Sorted cmp d c) ∧
    ∀ (xs : List (Tree d × Bytes)) (c : Tree d × Bytes) (ys : List (Tree d × Bytes)),
      (Interior.page t).cells = xs ++ c :: ys →
      (∀ e ∈ Tree.entries d c.1, (cmp e.1 c.2).isLE) ∧
      ∀ e ∈ chainEntries (Tree.entries d) ys (Interior.right t), cmp c.2 e.1 = .lt

theorem leafDepths_eq (d : Nat) : ∀ (t : Tree d), ∀ n ∈ Tree.leafDepths d t, n = d := by
  induction d with
  | zero => intro t n hn; simpa [Tree.leafDepths] using hn
  | succ d ih =>
    intro t n hn
    simp only [Tree.leafDepths, mem_map, mem_flatMap] at hn
    obtain ⟨m, ⟨c, -, hm⟩, rfl⟩ := hn
    rw [ih c m hm]

/-- What holds for the children with their ranges holds for each of them. -/
theorem Chain.forall_children {α : Type} {P : Option Bytes → Option Bytes → α → Prop} (Q : α → Prop)
    (hPQ : ∀ lo hi a, P lo hi a → Q a) {hi : Option Bytes} {right : α} (cells : List (α × Bytes)) :
    ∀ {lo : Option Bytes}, Chain cmp P lo hi cells right → ∀ a ∈ cells.map Prod.fst ++ [right], Q a := by
  induction cells with
  | nil =>
    intro lo h a ha
    rw [show a = right by simpa using ha]
    exact hPQ _ _ _ h
  | cons c cells ih =>
    intro lo h a ha
    rw [map_cons, cons_append, mem_cons] at ha
    rcases ha with rfl | ha
    · exact hPQ _ _ _ h.2.1
    · exact ih h.2.2 a ha

variable [Std.TransCmp cmp]

theorem TreeOk.sorted (d : Nat) : ∀ {lo hi : Option Bytes} {t : Tree d}, TreeOk ps cmp d lo hi t →
    Tree.Sorted cmp d t := by
  induction d with
  | zero =>
    intro lo hi t h
    exact List.Pairwise.map _ (fun _ _ h => h) h.increasing
  | succ d ih =>
    intro lo hi t h
    refine ⟨List.Pairwise.map _ (fun _ _ h => h) (Chain.pairwise _ h.chain),
      Chain.forall_children (Tree.Sorted cmp d) (fun _ _ _ h => ih h) _ h.chain, fun xs c ys hcells => ?_⟩
    have hchain := h.chain
    rw [hcells, chain_append] at hchain
    obtain ⟨-, -, hc, hys⟩ := hchain
    exact ⟨fun e he => ((good_treeOk d _ _ _ hc).2 e he).below _ rfl,
      fun e he => (((good_treeOk d).chain ys hys).2 e he).above _ rfl⟩

/-- One operation does to the entries what it does to the map. -/
theorem Op.exec_ok (hps : 512 ≤ ps) {t : Root} {m : Set LeafCell} (op : Op) (h : t.Ok ps cmp)
    (hm : { e | e ∈ t.entries } = m) (hfit : op.Fits ps cmp t) :
    (op.exec ps cmp t).2.Ok ps cmp ∧ { e | e ∈ (op.exec ps cmp t).2.entries } = op.apply cmp m ∧
      op.Answers cmp m (op.exec ps cmp t).1 := by
  cases op with
  | insert key val =>
    obtain ⟨hrc, hok, hent⟩ := h.insert hps hfit.1 hfit.2
    refine ⟨hok, ?_, congrArg Answer.inserted hrc⟩
    ext e
    show e ∈ (t.insert ps cmp key val).2.entries ↔ _
    rw [hent, mem_upsert, hm]
    rfl
  | remove key =>
    obtain ⟨hok, hent, hfound, -⟩ := h.remove key
    refine ⟨hok, ?_, _, rfl, ?_⟩
    · ext e
      show e ∈ (t.remove cmp key).2.entries ↔ _
      rw [hent, mem_erase, hm]
      rfl
    · rw [← hm]
      exact hfound

theorem runOps_ok (hps : 512 ≤ ps) (ops : List Op) : ∀ {t : Root} {m : Set LeafCell}, t.Ok ps cmp →
    { e | e ∈ t.entries } = m → OpsFit ps cmp ops t →
    (runOps ps cmp ops t).Ok ps cmp ∧
      { e | e ∈ (runOps ps cmp ops t).entries } = ops.foldl (Op.apply cmp) m := by
  induction ops with
  | nil => intro t m h hm _; exact ⟨h, hm⟩
  | cons op ops ih =>
    intro t m h hm hfit
    obtain ⟨hok, hm', -⟩ := op.exec_ok hps h hm hfit.1
    exact ih hok hm' hfit.2

/-- A B-tree refines a finite map: after any sequence of insertions and removals on a fresh tree, at
whose splits both halves fit, the entries below the root are those of the map, all leaves have the
same depth, and the keys are in order; the next operation gives the answer of the map, and the
removal of a missing key changes nothing. -/
theorem btree_refines_map (hps : 512 ≤ ps) (pgno : Nat) (ops : List Op)
    (hfit : OpsFit ps cmp ops (Root.create ps pgno)) :
    let t := runOps ps cmp ops (Root.create ps pgno)
    let m := ops.foldl (Op.apply cmp) ∅
    { e | e ∈ t.entries } = m ∧ (∀ n ∈ Tree.leafDepths t.depth t.tree, n = t.depth) ∧
    Tree.Sorted cmp t.depth t.tree ∧
    (∀ op : Op, op.Fits ps cmp t → op.Answers cmp m (op.exec ps cmp t).1) ∧
    ∀ key, ¬ Has cmp key m → (t.remove cmp key).2 = t := by
  intro t m
  obtain ⟨hok, hm⟩ := runOps_ok hps ops (ok_create hps pgno) (m := ∅) (by simp) hfit
  refine ⟨hm, leafDepths_eq _ _, TreeOk.sorted _ hok, fun op hop => (op.exec_ok hps hok hm hop).2.2,
    fun key hmissing => ?_⟩
  obtain ⟨-, -, hfound, hsame⟩ := hok.remove key
  refine hsame ?_
  rw [← Bool.not_eq_true, hfound]
  intro hhas
  rw [show m = _ from hm.symm] at hmissing
  exact hmissing hhas

/-- Five rows that fill more than a page, the last one written twice, and two removals. -/
def fiveRows : List Op :=
  [1, 2, 3, 5, 4, 4].map (fun r => .insert (rowidToKey r) (zeros 1010)) ++
    [.remove (rowidToKey 2), .remove (rowidToKey 9)]

theorem btree_refines_map_five :
    OpsFit 4096 (btCmp .table) fiveRows (Root.create 4096 2) ∧
    (runOps 4096 (btCmp .table) fiveRows (Root.create 4096 2)).depth = 1 ∧
    { e | e ∈ (runOps 4096 (btCmp .table) fiveRows (Root.create 4096 2)).entries }
      = fiveRows.foldl (Op.apply (btCmp .table)) ∅ := by
  have hfit : OpsFit 4096 (btCmp .table) fiveRows (Root.create 4096 2) := by decide +kernel
  exact ⟨hfit, by decide +kernel, (btree_refines_map (by decide) 2 fiveRows hfit).1⟩

end Tdb.BTree
