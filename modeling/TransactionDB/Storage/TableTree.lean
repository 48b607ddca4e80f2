import TransactionDB.Storage.BTreeRuns

/-!
# TransactionDB — table trees

A table tree by its rowids: `tdb_btree_put` and `tdb_btree_del` on the list of its rows, which is in
the order of the rowids.
-/

namespace Tdb.BTree

open SlottedPage SortedEntries List

/-- The rows of a table tree as its cells. -/
def rowCells (rows : List (UInt64 × Bytes)) : List LeafCell := rows.map fun r => (rowidToKey r.1, r.2)

/-- The tree is in order and has these rows. -/
structure Root.HasRows (ps : Nat) (t : Root) (rows : List (UInt64 × Bytes)) : Prop where
  ok : t.Ok ps (btCmp .table)
  entries : t.entries = rowCells rows

theorem keyToRowid_rowidToKey (r : UInt64) : keyToRowid (rowidToKey r) = r :=
  getU64_of_slice (by simpa [rowidToKey] using Layout.slice_zero_length (putU64 r))

theorem admitted_rowid {ps : Nat} (hps : 512 ≤ ps) (r : UInt64) : Admitted ps (rowidToKey r) := by
  have hlen : (rowidToKey r).length = 8 := by simp [rowidToKey]
  rw [Admitted, hlen]
  omega

theorem btCmp_rowid_lt {a b : UInt64} : btCmp .table (rowidToKey a) (rowidToKey b) = .lt ↔ a < b := by
  rw [btCmp_rowidToKey, Nat.compare_eq_lt, UInt64.lt_iff_toNat_lt]

theorem btCmp_rowid_gt {a b : UInt64} : btCmp .table (rowidToKey a) (rowidToKey b) = .gt ↔ b < a := by
  rw [btCmp_rowidToKey, Nat.compare_eq_gt, UInt64.lt_iff_toNat_lt]

theorem btCmp_rowid_eq {a b : UInt64} : btCmp .table (rowidToKey a) (rowidToKey b) = .eq ↔ a = b := by
  rw [btCmp_rowidToKey, Nat.compare_eq_eq, UInt64.toNat_inj]

/-! ## Cells that do not grow -/

theorem varintLen_mono {m n : Nat} (h : m ≤ n) : varintLen m ≤ varintLen n := by
  suffices hput : ∀ k {m n : Nat}, m ≤ n → (Varint.put k m).length ≤ (Varint.put k n).length from
    hput 9 h
  intro k
  induction k with
  | zero => intro m n _; rfl
  | succ k ih =>
    intro m n h
    rw [Varint.put, Varint.put]
    split
    · split <;> simp
    · next hm =>
      rw [if_neg (by omega)]
      simpa using ih (Nat.div_le_div_right h)

/-- A cell of a table takes what it needs, and a quarter of the page at most. -/
theorem leafCellSize_eq {ps : Nat} (hps : 512 ≤ ps) {key : Bytes} (hkey : key.length = 8) (v : Bytes) :
    leafCellSize ps (key, v)
      = min (varintLen 8 + 8 + varintLen v.length + v.length) ((ps - 12) / 4) := by
  have hv : varintLen v.length ≤ 10 := Varint.length_put_le 9 _
  have h8 : varintLen 8 = 1 := rfl
  simp only [leafCellSize, localValLen, hkey, h8]
  split
  · next hfits =>
    rw [if_neg (lt_irrefl _)]
    omega
  · next hlarge =>
    rw [Nat.min_eq_left (by omega), if_pos (by omega)]
    omega

/-- A cell with a shorter value is not larger. -/
theorem leafCellSize_mono {ps : Nat} (hps : 512 ≤ ps) {key v w : Bytes} (hkey : key.length = 8)
    (h : v.length ≤ w.length) : leafCellSize ps (key, v) ≤ leafCellSize ps (key, w) := by
  have hmono := varintLen_mono h
  rw [leafCellSize_eq hps hkey, leafCellSize_eq hps hkey]
  omega

/-- A cell that is not larger than one of the page fits in its place. -/
theorem room_replace {γ : Type} {g : Geometry γ} {p : SlottedPage.Page γ} {xs ys : List γ} {c c' : γ}
    (h : Valid g p) (hcells : p.cells = xs ++ c :: ys) (hsize : g.size c' ≤ g.size c) :
    Room g (xs ++ ys) c' := by
  have hlen := h.length_cells
  have hheader := h.header
  have hcontent := h.content
  rw [hcells] at hlen hcontent
  simp only [length_append, length_cons, used_append, used_cons] at hlen hcontent
  rw [Room, Geometry.need, length_append, used_append]
  omega

section

variable {ps : Nat} {cmp : Bytes → Bytes → Ordering} [Std.TransCmp cmp] {lo hi : Option Bytes}
  {cell c : LeafCell}

theorem LeafOk.splitsFit_replace {l : Leaf} (h : LeafOk ps cmp lo hi l)
    (hsize : leafCellSize ps cell ≤ leafCellSize ps c) (hc : cmp c.1 cell.1 = .eq)
    (hmem : c ∈ l.page.cells) (next : Nat) :
    SplitsFit ps cmp 0 next l cell ∧ (insertLeaf ps cmp next l cell).split = none := by
  obtain ⟨xs, ys, hlen, hxs, hys, hplace⟩ := h.locate cell.1
  have hnot : c ∉ xs ++ ys := by
    intro hin
    rcases mem_append.mp hin with hin | hin
    · rw [hxs c hin] at hc; cases hc
    · rw [hys c hin] at hc; cases hc
  rcases hplace with ⟨hexact, c', -, hcells⟩ | ⟨-, hcells⟩
  · obtain rfl : c = c' := by
      rw [hcells] at hmem
      simp only [mem_append, mem_cons] at hmem hnot
      tauto
    have hroom : Room (leafGeometry ps) (l.cleared cmp cell.1).cells cell := by
      rw [Leaf.cleared, if_pos hexact, ← hlen, (h.cells_deleteCell hcells).2]
      exact room_replace h.valid hcells hsize
    refine ⟨fun hfull => absurd hroom hfull, ?_⟩
    obtain ⟨xs', ys', hvalid, hcells', hlen', -⟩ := h.cleared cell
    have hidx : pgFind cmp l.keys cell.1 ≤ (l.cleared cmp cell.1).ncell := by
      rw [← hlen', ← hvalid.length_cells, hcells']
      simp
    have hok := (insertCell_room hvalid hidx hroom).1
    rw [insertLeaf]
    split
    · rfl
    · next hfull => rw [hfull] at hok; cases hok
  · rw [hcells] at hmem
    exact absurd hmem hnot

theorem insertInterior_split_none {α : Type} [Inhabited α] (n : Interior α) (ci : Nat) {r : Inserted α}
    (h : r.split = none) : (insertInterior ps n ci r).split = none := by
  rw [insertInterior, h]

/-- A cell that is there is written again without a split if it does not grow. -/
theorem splitsFit_replace (hsize : leafCellSize ps cell ≤ leafCellSize ps c)
    (hc : cmp c.1 cell.1 = .eq) (next d : Nat) : ∀ {lo hi : Option Bytes} {t : Tree d},
    TreeOk ps cmp d lo hi t → InRange cmp lo hi cell.1 → c ∈ Tree.entries d t →
    SplitsFit ps cmp d next t cell ∧ (insertRec ps cmp d next t cell).split = none := by
  induction d with
  | zero => intro lo hi t h _ hmem; exact LeafOk.splitsFit_replace h hsize hc hmem next
  | succ d ih =>
    intro lo hi t h hkey hmem
    obtain ⟨-, lo', hi', hkey', hchild, es, es', hent, hes, hes', -⟩ :=
      InteriorOk.descend (n := t) h (good_treeOk d) hkey
    have hmem' : c ∈ Tree.entries d (Interior.child t (pgFind cmp (Interior.keys t) cell.1)) := by
      rw [show Tree.entries (d + 1) t = _ from entries_interior d t, hent] at hmem
      simp only [mem_append] at hmem
      rcases hmem with (hin | hin) | hin
      · rw [hes c hin] at hc; cases hc
      · exact hin
      · rw [hes' c hin] at hc; cases hc
    obtain ⟨hfit, hsplit⟩ := ih hchild hkey' hmem'
    refine ⟨⟨hfit, ?_⟩, insertInterior_split_none _ _ hsplit⟩
    rw [hsplit]
    trivial

end

variable {ps : Nat} {t : Root} {rows : List (UInt64 × Bytes)}

theorem hasRows_create (hps : 512 ≤ ps) (pgno : Nat) : (Root.create ps pgno).HasRows ps [] :=
  ⟨ok_create hps pgno, rfl⟩

namespace Root.HasRows

theorem increasing (h : t.HasRows ps rows) : rows.Pairwise (fun a b => a.1 < b.1) := by
  have hinc : Increasing (btCmp .table) t.entries := (good_treeOk t.depth _ _ _ h.ok).1
  rw [h.entries, rowCells, Increasing, pairwise_map] at hinc
  exact hinc.imp btCmp_rowid_lt.mp

/-- A row behind all others. -/
theorem put_last (hps : 512 ≤ ps) (h : t.HasRows ps rows) {id : UInt64} {v : Bytes}
    (hid : ∀ r ∈ rows, r.1 < id) (hfit : t.SplitsFit ps (btCmp .table) (rowidToKey id) v) :
    (t.put ps id v).1 = .ok ∧ (t.put ps id v).2.HasRows ps (rows ++ [(id, v)]) := by
  obtain ⟨hrc, hok, hent⟩ := h.ok.insert hps (admitted_rowid hps id) hfit
  refine ⟨hrc, hok, ?_⟩
  have hlt : ∀ p ∈ rowCells rows, btCmp .table p.1 (rowidToKey id) = .lt := by
    intro p hp
    obtain ⟨r, hr, rfl⟩ := mem_map.mp hp
    exact btCmp_rowid_lt.mpr (hid r hr)
  refine hent.trans ?_
  rw [h.entries, ← append_nil (rowCells rows), upsert_append_right hlt, upsert_nil]
  simp [rowCells]

section

variable (hps : 512 ≤ ps) {xs ys : List (UInt64 × Bytes)} {id : UInt64} {v w : Bytes}
  (h : t.HasRows ps (xs ++ (id, w) :: ys))

include hps h

/-- A row that is there is written again. -/
theorem put_at (hfit : t.SplitsFit ps (btCmp .table) (rowidToKey id) v) :
    (t.put ps id v).1 = .ok ∧ (t.put ps id v).2.HasRows ps (xs ++ (id, v) :: ys) := by
  obtain ⟨hrc, hok, hent⟩ := h.ok.insert hps (admitted_rowid hps id) hfit
  refine ⟨hrc, hok, ?_⟩
  obtain ⟨-, hys, hxs⟩ := pairwise_append.mp h.increasing
  have hlt : ∀ p ∈ rowCells xs, btCmp .table p.1 (rowidToKey id) = .lt := by
    intro p hp
    obtain ⟨r, hr, rfl⟩ := mem_map.mp hp
    exact btCmp_rowid_lt.mpr (hxs r hr _ mem_cons_self)
  have hgt : ∀ p ∈ rowCells ys, btCmp .table p.1 (rowidToKey id) = .gt := by
    intro p hp
    obtain ⟨r, hr, rfl⟩ := mem_map.mp hp
    exact btCmp_rowid_gt.mpr ((pairwise_cons.mp hys).1 r hr)
  have hsplit : ∀ u : Bytes,
      rowCells (xs ++ (id, u) :: ys) = rowCells xs ++ (rowidToKey id, u) :: rowCells ys :=
    fun u => by simp [rowCells]
  refine hent.trans ?_
  rw [h.entries, hsplit, hsplit, upsert_append_right hlt, upsert_cons_eq (btCmp_rowid_eq.mpr rfl),
    upsert_of_gt hgt]

/-- A row is written again with no more bytes than it had. -/
theorem splitsFit_shrink (hlen : v.length ≤ w.length) :
    t.SplitsFit ps (btCmp .table) (rowidToKey id) v := by
  have hmem : (rowidToKey id, w) ∈ t.entries := by
    rw [h.entries]
    exact mem_map_of_mem (a := (id, w)) (by simp)
  have hsize := leafCellSize_mono hps (show (rowidToKey id).length = 8 by simp [rowidToKey]) hlen
  exact (splitsFit_replace hsize (btCmp_rowid_eq.mpr rfl) t.next t.depth h.ok (inRange_none _) hmem).1

end

/-- Deleting a rowid keeps the other rows. -/
theorem del (h : t.HasRows ps rows) (id : UInt64) :
    (t.del id).2.HasRows ps (rows.filter (fun r => r.1 ≠ id)) := by
  obtain ⟨hok, hent, -, -⟩ := h.ok.remove (rowidToKey id)
  refine ⟨hok, hent.trans ?_⟩
  rw [h.entries, rowCells, rowCells, erase, filter_map]
  congr 1
  refine filter_congr fun r _ => ?_
  simp [btCmp_rowid_eq]

/-- Deleting a row that is there. -/
theorem del_at {xs ys : List (UInt64 × Bytes)} {id : UInt64} {w : Bytes}
    (h : t.HasRows ps (xs ++ (id, w) :: ys)) : (t.del id).2.HasRows ps (xs ++ ys) := by
  obtain ⟨-, hys, hxs⟩ := pairwise_append.mp h.increasing
  have hdel := h.del id
  have hx : xs.filter (fun r => r.1 ≠ id) = xs := filter_eq_self.mpr fun r hr => by
    simpa using UInt64.ne_of_lt (hxs r hr _ mem_cons_self)
  have hy : ys.filter (fun r => r.1 ≠ id) = ys := filter_eq_self.mpr fun r hr => by
    simpa using (UInt64.ne_of_lt ((pairwise_cons.mp hys).1 r hr)).symm
  rw [filter_append, filter_cons_of_neg (by simp), hx, hy] at hdel
  exact hdel

end Root.HasRows

end Tdb.BTree
