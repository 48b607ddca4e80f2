import TransactionDB.Storage.BTree

/-!
# TransactionDB — what a page split keeps

`split_leaf` and `split_interior` choose the cut by the number of cells and do not look at whether
a cell found room in the half it was assigned to. The halves have all the cells exactly when the
sizes of the cells assigned to each of them add up to no more than a page.

With pages of 4096 bytes a leaf can have four small cells in front of three large ones; with a
fourth large one the second half would need 4100 bytes, and the last cell is lost.
-/

namespace Tdb.BTree

open SlottedPage List

theorem insertIdx_append {γ : Type*} (xs ys : List γ) (c : γ) :
    (xs ++ ys).insertIdx xs.length c = xs ++ c :: ys := by
  induction xs with
  | nil => simp
  | cons x xs ih => simpa using ih

theorem modify_append {γ : Type*} (xs ys : List γ) (c : γ) (f : γ → γ) :
    (xs ++ c :: ys).modify xs.length f = xs ++ f c :: ys := by
  induction xs with
  | nil => simp
  | cons x xs ih => simpa using ih

/-- A list cut at a position. -/
theorem exists_append_of_le {γ : Type*} {l : List γ} {i : Nat} (h : i ≤ l.length) :
    ∃ xs ys, l = xs ++ ys ∧ xs.length = i :=
  ⟨l.take i, l.drop i, (take_append_drop i l).symm, by rw [length_take]; omega⟩

/-! ## Leaves -/

/-- Both halves of the leaf have room for the cells assigned to them. -/
def LeafHalvesFit (ps : Nat) (p : SlottedPage.Page LeafCell) (ins : Nat) (cell : LeafCell) : Prop :=
  let all := p.cells.insertIdx ins cell
  (leafGeometry ps).need (all.take (leafCut all.length)) ≤ ps ∧
    (leafGeometry ps).need (all.drop (leafCut all.length)) ≤ ps

instance (ps : Nat) (p : SlottedPage.Page LeafCell) (ins : Nat) (cell : LeafCell) :
    Decidable (LeafHalvesFit ps p ins cell) := inferInstanceAs (Decidable (_ ∧ _))

/-- Two pages filled with the parts of a list hold the list exactly when the parts fit. -/
theorem fill_perm_iff {γ : Type*} [Inhabited γ] {g : Geometry γ} (hheader : g.header ≤ g.pageSize)
    (cs mid ds : List γ) :
    ((fill g cs).cells ++ mid ++ (fill g ds).cells).Perm (cs ++ mid ++ ds) ↔
      g.need cs ≤ g.pageSize ∧ g.need ds ≤ g.pageSize := by
  refine ⟨fun hperm => ?_, fun ⟨hcs, hds⟩ => by rw [(fill_fits hcs).1, (fill_fits hds).1]⟩
  -- with a cell lost the lengths differ
  have hlen := hperm.length_eq
  simp only [length_append] at hlen
  have hcs := length_cells_fill_le (g := g) cs
  have hds := length_cells_fill_le (g := g) ds
  exact ⟨(length_cells_fill_iff hheader).mp (by omega), (length_cells_fill_iff hheader).mp (by omega)⟩

theorem splitLeaf_perm_iff {ps : Nat} (hps : 8 ≤ ps) {p : SlottedPage.Page LeafCell} {ins : Nat}
    (hins : ins ≤ p.cells.length) (cell : LeafCell) :
    ((splitLeaf ps p ins cell).1.cells ++ (splitLeaf ps p ins cell).2.2.cells).Perm (cell :: p.cells)
      ↔ LeafHalvesFit ps p ins cell := by
  have hperm := perm_insertIdx cell p.cells hins
  rw [← hperm.congr_right]
  have hiff := fill_perm_iff (g := leafGeometry ps) hps
    ((p.cells.insertIdx ins cell).take (leafCut (p.cells.insertIdx ins cell).length)) []
    ((p.cells.insertIdx ins cell).drop (leafCut (p.cells.insertIdx ins cell).length))
  simp only [append_nil, take_append_drop] at hiff
  exact hiff

/-! ## Interior pages -/

section Interior

variable {α : Type} {n : Interior α} {ins : Nat} {a b : α} {k : Bytes}

/-- The cells of an interior page with the new one, the cell behind it pointing to the right half. -/
def Interior.cellsWith (n : Interior α) (ins : Nat) (left : α) (sep : Bytes) (right : α) :
    List (α × Bytes) := (n.setChild ins right).page.cells.insertIdx ins (left, sep)

/-- The child behind these cells. -/
def Interior.rightWith (n : Interior α) (ins : Nat) (right : α) : α := (n.setChild ins right).right

theorem cells_setChild {xs ys : List (α × Bytes)} {c : α × Bytes}
    (hncell : n.page.cells.length = n.page.ncell) (hcells : n.page.cells = xs ++ c :: ys) (a : α) :
    (n.setChild xs.length a).page.cells = xs ++ (a, c.2) :: ys ∧
      (n.setChild xs.length a).right = n.right := by
  have hlt : xs.length < n.page.ncell := by
    rw [← hncell, hcells]
    simp
  rw [Interior.setChild, if_pos hlt]
  refine ⟨?_, rfl⟩
  show (n.page.slots.modify xs.length _).take n.page.ncell = _
  rw [take_modify]
  show n.page.cells.modify xs.length _ = _
  rw [hcells, modify_append]

theorem setChild_last (hncell : n.page.cells.length = n.page.ncell) (a : α) :
    n.setChild n.page.cells.length a = { n with right := a } := by
  rw [Interior.setChild, if_neg (by omega)]

theorem Interior.child_append {xs ys : List (α × Bytes)} {c : α × Bytes}
    (hcells : n.page.cells = xs ++ c :: ys) : n.child xs.length = c.1 := by
  simp [Interior.child, hcells]

theorem Interior.child_last : n.child n.page.cells.length = n.right := by
  simp [Interior.child]

/-- The cells with the new one, around its place. -/
theorem cellsWith_append {xs ys : List (α × Bytes)} {c : α × Bytes}
    (hncell : n.page.cells.length = n.page.ncell) (hcells : n.page.cells = xs ++ c :: ys) :
    n.cellsWith xs.length a k b = xs ++ (a, k) :: (b, c.2) :: ys ∧
      n.rightWith xs.length b = n.right := by
  have hset := cells_setChild hncell hcells b
  exact ⟨by rw [Interior.cellsWith, hset.1, insertIdx_append], hset.2⟩

section

variable (hncell : n.page.cells.length = n.page.ncell)

include hncell

theorem cellsWith_last :
    n.cellsWith n.page.cells.length a k b = n.page.cells ++ [(a, k)] ∧
      n.rightWith n.page.cells.length b = b := by
  rw [Interior.cellsWith, Interior.rightWith, setChild_last hncell]
  exact ⟨insertIdx_length_self .., rfl⟩

/-- The keys and the children that `split_interior` collects are those of these cells. -/
theorem keysWith_childrenWith (hins : ins ≤ n.page.cells.length) :
    n.keysWith ins k = (n.cellsWith ins a k b).map Prod.snd ∧
      n.childrenWith ins a b
        = (n.cellsWith ins a k b).map Prod.fst ++ [n.rightWith ins b] := by
  obtain ⟨xs, ys, hcells, rfl⟩ := exists_append_of_le hins
  cases ys with
  | nil =>
    have hlast : xs.length = n.page.cells.length := by rw [hcells]; simp
    obtain ⟨hwith, hright⟩ := cellsWith_last (a := a) (k := k) (b := b) hncell
    rw [hlast, hwith, hright, Interior.keysWith, Interior.childrenWith, Interior.keys,
      Interior.children]
    constructor
    · have hlen : n.page.cells.length = (n.page.cells.map Prod.snd).length := by simp
      rw [hlen, insertIdx_length_self]
      simp
    · simp
  | cons c ys =>
    obtain ⟨hwith, hright⟩ := cellsWith_append (a := a) (k := k) (b := b) hncell hcells
    rw [hwith, hright, Interior.keysWith, Interior.childrenWith, Interior.keys, Interior.children,
      hcells]
    constructor
    · have hlen : xs.length = (xs.map Prod.snd).length := by simp
      rw [map_append, hlen, insertIdx_append]
      simp
    · simp [drop_append]

theorem length_cellsWith (hins : ins ≤ n.page.cells.length) :
    (n.cellsWith ins a k b).length = n.page.cells.length + 1 := by
  have hkeys := (keysWith_childrenWith (a := a) (k := k) (b := b) hncell hins).1
  rw [← length_map (f := Prod.snd), ← hkeys, Interior.keysWith, Interior.keys,
    length_insertIdx_of_le_length (by simpa using hins), length_map]

end

theorem zip_fst_snd {β δ : Type*} (l : List (β × δ)) (rest : List β) :
    (l.map Prod.fst ++ rest).zip (l.map Prod.snd) = l := by
  induction l with
  | nil => simp
  | cons x l ih => simpa using ih

/-- `split_interior` in terms of the cells with the new one. -/
theorem splitInterior_eq [Inhabited α] {ps pgno : Nat}
    (hncell : n.page.cells.length = n.page.ncell) (hins : ins ≤ n.page.cells.length) :
    let cells := n.cellsWith ins a k b
    splitInterior ps n ins a k b pgno =
      (⟨n.pgno, fill (intGeometry ps α) (cells.take (cells.length / 2)),
          (cells.getD (cells.length / 2) default).1⟩,
        (cells.getD (cells.length / 2) default).2,
        ⟨pgno, fill (intGeometry ps α) (cells.drop (cells.length / 2 + 1)), n.rightWith ins b⟩) := by
  intro cells
  obtain ⟨hkeys, hchildren⟩ := keysWith_childrenWith (a := a) (k := k) (b := b)
    hncell hins
  have hlen := length_cellsWith (a := a) (k := k) (b := b) hncell hins
  have hmid : cells.length / 2 < cells.length := by
    rw [show cells.length = _ from hlen]
    omega
  have hlenKeys : (n.keysWith ins k).length = cells.length := by rw [hkeys, length_map]
  have hzip : (n.childrenWith ins a b).zip (n.keysWith ins k) = cells := by
    rw [hkeys, hchildren, zip_fst_snd]
  have htake : ∀ i, ((n.childrenWith ins a b).take i).zip ((n.keysWith ins k).take i)
      = cells.take i := by
    intro i
    rw [← hzip]
    exact take_zipWith.symm
  have hdrop : ∀ i, ((n.childrenWith ins a b).drop i).zip ((n.keysWith ins k).drop i)
      = cells.drop i := by
    intro i
    rw [← hzip]
    exact drop_zipWith.symm
  have hchild : (n.childrenWith ins a b).getD (cells.length / 2) default
      = (cells.getD (cells.length / 2) default).1 := by
    rw [hchildren]
    simp [List.getD, getElem?_append_left, length_map, cells, hmid]
  have hkey : (n.keysWith ins k).getD (cells.length / 2) []
      = (cells.getD (cells.length / 2) default).2 := by
    rw [hkeys]
    simp [List.getD, cells, hmid]
  have hlast : (n.childrenWith ins a b).getLastD default = n.rightWith ins b := by
    rw [hchildren, getLastD_concat]
  simp only [splitInterior, hlenKeys, htake, hdrop, hchild, hkey, hlast]

/-- Both halves of the interior page have room for the cells assigned to them. -/
def InteriorHalvesFit (ps : Nat) (n : Interior α) (ins : Nat) (left : α) (sep : Bytes) (right : α) :
    Prop :=
  let cells := n.cellsWith ins left sep right
  (intGeometry ps α).need (cells.take (cells.length / 2)) ≤ ps ∧
    (intGeometry ps α).need (cells.drop (cells.length / 2 + 1)) ≤ ps

instance (ps : Nat) (n : Interior α) (ins : Nat) (left : α) (sep : Bytes) (right : α) :
    Decidable (InteriorHalvesFit ps n ins left sep right) := inferInstanceAs (Decidable (_ ∧ _))

theorem splitInterior_perm_iff [Inhabited α] {ps pgno : Nat} (hps : 12 ≤ ps)
    (hncell : n.page.cells.length = n.page.ncell) (hins : ins ≤ n.page.cells.length) :
    let halves := splitInterior ps n ins a k b pgno
    (halves.1.page.cells ++ [(halves.1.right, halves.2.1)] ++ halves.2.2.page.cells).Perm
      ((a, k) :: (n.setChild ins b).page.cells) ↔
      InteriorHalvesFit ps n ins a k b := by
  intro halves
  have hlen := length_cellsWith (a := a) (k := k) (b := b) hncell hins
  have hins' : ins ≤ (n.setChild ins b).page.cells.length := by
    by_contra hlt
    rw [Interior.cellsWith, insertIdx_of_length_lt (by omega)] at hlen
    omega
  have hperm := perm_insertIdx (a, k) (n.setChild ins b).page.cells hins'
  rw [← hperm.congr_right]
  show _ ↔ InteriorHalvesFit ps n ins a k b
  simp only [halves, splitInterior_eq (a := a) (k := k) (b := b) hncell hins,
    InteriorHalvesFit]
  change (_ : List (α × Bytes)).Perm (n.cellsWith ins a k b) ↔ _
  generalize n.cellsWith ins a k b = cells at hlen
  have hmid : cells.length / 2 < cells.length := by omega
  have hget : (cells.getD (cells.length / 2) default) = cells.get ⟨cells.length / 2, hmid⟩ := by
    simp [List.getD, hmid]
  have hcut : cells.take (cells.length / 2) ++ [cells.get ⟨cells.length / 2, hmid⟩]
      ++ cells.drop (cells.length / 2 + 1) = cells := by
    rw [append_assoc, singleton_append, get_eq_getElem, cons_getElem_drop_succ,
      take_append_drop]
  have hiff := fill_perm_iff (g := intGeometry ps α) hps (cells.take (cells.length / 2))
    [cells.get ⟨cells.length / 2, hmid⟩] (cells.drop (cells.length / 2 + 1))
  rw [hcut] at hiff
  rw [hget]
  exact hiff

end Interior

/-! ## Splits of reachable pages -/

/-- A split of a valid page keeps every cell, with the promoted separator for an interior page,
exactly when both halves have room for the cells assigned to them. An interior page counts as
having its new cell when the cell behind it points to the new page. -/
theorem split_keeps_cells_iff {ps : Nat} (hps : 512 ≤ ps) :
    (∀ (p : SlottedPage.Page LeafCell) (ins : Nat) (cell : LeafCell), Valid (leafGeometry ps) p → ins ≤ p.ncell →
      (((splitLeaf ps p ins cell).1.cells ++ (splitLeaf ps p ins cell).2.2.cells).Perm
        (cell :: p.cells) ↔ LeafHalvesFit ps p ins cell)) ∧
    ∀ (α : Type) [Inhabited α] (n : Interior α) (ins : Nat) (left : α) (sep : Bytes) (right : α)
      (pgno : Nat), Valid (intGeometry ps α) n.page → ins ≤ n.page.ncell →
      let halves := splitInterior ps n ins left sep right pgno
      ((halves.1.page.cells ++ [(halves.1.right, halves.2.1)] ++ halves.2.2.page.cells).Perm
          ((left, sep) :: (n.setChild ins right).page.cells) ∧
        halves.2.2.right = (n.setChild ins right).right ↔
        InteriorHalvesFit ps n ins left sep right) := by
  refine ⟨fun p ins cell hvalid hins => ?_, fun α _ n ins left sep right pgno hvalid hins => ?_⟩
  · exact splitLeaf_perm_iff (by omega) (by rw [hvalid.length_cells]; exact hins) cell
  · intro halves
    have hncell := hvalid.length_cells
    have hins' : ins ≤ n.page.cells.length := by rw [hncell]; exact hins
    have hright : halves.2.2.right = (n.setChild ins right).right := by
      simp only [halves, splitInterior_eq hncell hins', Interior.rightWith]
    rw [and_iff_left hright]
    exact splitInterior_perm_iff (by omega) hncell hins'

/-- The leaf of a tree that has only one page. -/
def Root.topLeaf : Root → Option (SlottedPage.Page LeafCell)
  | ⟨0, l, _⟩ => some (Leaf.page l)
  | ⟨_ + 1, _, _⟩ => none

/-- Four rows without a value, then three with the largest value that stays in its cell. -/
def sevenRows : Root :=
  [(1, 0), (2, 0), (3, 0), (4, 0), (5, 1010), (6, 1010), (7, 1010)].foldl
    (fun t r => (t.put 4096 r.1 (zeros r.2)).2) (Root.create 4096 2)

def sevenPage : SlottedPage.Page LeafCell where
  slots := [(1, 0), (2, 0), (3, 0), (4, 0), (5, 1010), (6, 1010), (7, 1010)].map
    fun r => (rowidToKey r.1, zeros r.2)
  ncell := 7
  content := 993

/-- An eighth row of the same kind is accepted and lost. -/
theorem splitLeaf_loses_row :
    sevenRows.topLeaf = some sevenPage ∧ Valid (leafGeometry 4096) sevenPage ∧
    Admitted 4096 (rowidToKey 8) ∧
    ¬ Room (leafGeometry 4096) sevenPage.cells (rowidToKey 8, zeros 1010) ∧
    ¬ ((splitLeaf 4096 sevenPage 7 (rowidToKey 8, zeros 1010)).1.cells ++
        (splitLeaf 4096 sevenPage 7 (rowidToKey 8, zeros 1010)).2.2.cells).Perm
      ((rowidToKey 8, zeros 1010) :: sevenPage.cells) ∧
    (sevenRows.put 4096 8 (zeros 1010)).1 = .ok ∧
    (sevenRows.put 4096 8 (zeros 1010)).2.entries = sevenRows.entries := by
  refine ⟨by decide +kernel, ⟨by decide +kernel, by decide +kernel, by decide +kernel⟩,
    by decide +kernel, by decide +kernel, fun hperm => ?_, by decide +kernel, by decide +kernel⟩
  exact absurd hperm.length_eq (by decide +kernel)

/-- Two children in front of the right one, with short separators. -/
def twoCells : Interior Nat := ⟨2, ⟨[(3, [1]), (4, [5])], 2, 4084⟩, 7⟩

/-- In front of the others a row of the same size finds room, and so do the cells of a small
interior page. -/
theorem split_keeps_cells_front :
    Valid (leafGeometry 4096) sevenPage ∧ LeafHalvesFit 4096 sevenPage 0 (rowidToKey 0, zeros 1010) ∧
    ((splitLeaf 4096 sevenPage 0 (rowidToKey 0, zeros 1010)).1.cells ++
        (splitLeaf 4096 sevenPage 0 (rowidToKey 0, zeros 1010)).2.2.cells).Perm
      ((rowidToKey 0, zeros 1010) :: sevenPage.cells) ∧
    (splitInterior 4096 twoCells 1 4 [3] 8 9).2.2.right = 7 := by
  have hvalid : Valid (leafGeometry 4096) sevenPage :=
    ⟨by decide +kernel, by decide +kernel, by decide +kernel⟩
  have hfit : LeafHalvesFit 4096 sevenPage 0 (rowidToKey 0, zeros 1010) := by decide +kernel
  have hvalid' : Valid (intGeometry 4096 Nat) twoCells.page :=
    ⟨by decide, by decide, by decide +kernel⟩
  have hfit' : InteriorHalvesFit 4096 twoCells 1 4 [3] 8 := by decide +kernel
  have hkeeps := @split_keeps_cells_iff 4096 (by decide)
  exact ⟨hvalid, hfit, (hkeeps.1 _ _ _ hvalid (by decide)).mpr hfit,
    ((hkeeps.2 Nat twoCells 1 4 [3] 8 9 hvalid' (by decide)).mpr hfit').2⟩

end Tdb.BTree
