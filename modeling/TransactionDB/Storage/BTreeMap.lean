import TransactionDB.Storage.BTreeOrder

/-!
# TransactionDB — the B-tree is a finite map

As long as both halves fit at every split, the entries below the root are those of a map from keys
to values, with keys that compare equal as one key. An insertion and a removal are done in the
child that is responsible for the key, so what they do to the entries of the child is what they
do to the entries of the page.
-/

namespace Tdb.BTree

open SlottedPage SortedEntries List

variable {ps : Nat} {cmp : Bytes → Bytes → Ordering}

/-! ## The size of a cell -/

theorem varintLen_le (n : Nat) : varintLen n ≤ 10 := Varint.length_put_le 9 n

/-- A leaf cell with an admitted key needs little more than half a page. -/
theorem leafCellSize_le {c : LeafCell} (h : Admitted ps c.1) : leafCellSize ps c ≤ ps / 2 + 8 := by
  have hk := varintLen_le c.1.length
  have hv := varintLen_le c.2.length
  rw [Admitted] at h
  simp only [leafCellSize, localValLen]
  split <;> split <;> omega

theorem intCellSize_le {k : Bytes} (h : Admitted ps k) : intCellSize k ≤ ps / 2 := by
  have hk := varintLen_le k.length
  rw [Admitted] at h
  rw [intCellSize]
  omega

/-- An admitted cell fits into an empty leaf. -/
theorem room_empty_leaf {c : LeafCell} (hps : 512 ≤ ps) (h : Admitted ps c.1) :
    Room (leafGeometry ps) [] c := by
  have hsize := leafCellSize_le h
  simp only [Room, Geometry.need, leafGeometry, length_nil, used_nil]
  omega

theorem room_empty_interior {α : Type} {c : α × Bytes} (hps : 512 ≤ ps) (h : Admitted ps c.2) :
    Room (intGeometry ps α) [] c := by
  have hsize := intCellSize_le h
  simp only [Room, Geometry.need, intGeometry, length_nil, used_nil]
  omega

/-! ## Insertion -/

/-- What an insertion leaves: a subtree for the range, or two of them with a separator, that have
the given entries together. -/
def InsertedOk {α : Type} (ps : Nat) (cmp : Bytes → Bytes → Ordering)
    (P : Option Bytes → Option Bytes → α → Prop) (f : α → List LeafCell) (lo hi : Option Bytes)
    (out : List LeafCell) (r : Inserted α) : Prop :=
  match r.split with
  | none => P lo hi r.node ∧ f r.node = out
  | some (sep, right) =>
    SepRange cmp lo hi sep ∧ Admitted ps sep ∧ P lo (some sep) r.node ∧ P (some sep) hi right ∧
      f r.node ++ f right = out

/-- At every split of the insertion both halves fit. -/
def SplitsFit (ps : Nat) (cmp : Bytes → Bytes → Ordering) :
    (d : Nat) → Nat → Tree d → LeafCell → Prop
  | 0, _, t, cell =>
    let l : Leaf := t
    ¬ Room (leafGeometry ps) (l.cleared cmp cell.1).cells cell →
      LeafHalvesFit ps (l.cleared cmp cell.1) (pgFind cmp l.keys cell.1) cell
  | d + 1, next, t, cell =>
    let n : Interior (Tree d) := t
    let ci := pgFind cmp n.keys cell.1
    let r := insertRec ps cmp d next (n.child ci) cell
    SplitsFit ps cmp d next (n.child ci) cell ∧
      match r.split with
      | none => True
      | some (sep, right) =>
        ¬ Room (intGeometry ps (Tree d)) n.page.cells (r.node, sep) →
          InteriorHalvesFit ps n ci r.node sep right

instance instDecidableSplitsFit (ps : Nat) (cmp : Bytes → Bytes → Ordering) :
    (d next : Nat) → (t : Tree d) → (cell : LeafCell) → Decidable (SplitsFit ps cmp d next t cell)
  | 0, _, _, _ => inferInstanceAs (Decidable (¬ _ → _))
  | d + 1, next, t, cell =>
    let n : Interior (Tree d) := t
    let ci := pgFind cmp n.keys cell.1
    have : Decidable (SplitsFit ps cmp d next (n.child ci) cell) :=
      instDecidableSplitsFit ps cmp d next (n.child ci) cell
    match h : (insertRec ps cmp d next (n.child ci) cell).split with
    | none => decidable_of_iff (SplitsFit ps cmp d next (n.child ci) cell)
        (by simp only [SplitsFit]; rw [h]; simp [n, ci])
    | some (sep, right) => decidable_of_iff
        (SplitsFit ps cmp d next (n.child ci) cell ∧
          (¬ Room (intGeometry ps (Tree d)) n.page.cells
              ((insertRec ps cmp d next (n.child ci) cell).node, sep) →
            InteriorHalvesFit ps n ci (insertRec ps cmp d next (n.child ci) cell).node sep right))
        (by simp only [SplitsFit]; rw [h])

section Leaf

variable [Std.TransCmp cmp] {lo hi : Option Bytes} {l : Leaf} {cell : LeafCell}

/-- The place of a key in a leaf: `xs` in front of it, `ys` behind it, and the cell of the key itself
between them if there is one. -/
theorem LeafOk.locate (h : LeafOk ps cmp lo hi l) (key : Bytes) :
    ∃ xs ys, xs.length = pgFind cmp l.keys key ∧ (∀ p ∈ xs, cmp p.1 key = .lt) ∧
      (∀ p ∈ ys, cmp p.1 key = .gt) ∧
      ((pgExact cmp l.keys key = true ∧ ∃ c, cmp c.1 key = .eq ∧ l.page.cells = xs ++ c :: ys) ∨
        (pgExact cmp l.keys key = false ∧ l.page.cells = xs ++ ys)) :=
  pgFind_locate h.increasing key

omit [Std.TransCmp cmp] in
/-- The leaf without the cell of a key. -/
theorem LeafOk.cells_deleteCell (h : LeafOk ps cmp lo hi l) {xs ys : List LeafCell} {c : LeafCell}
    (hcells : l.page.cells = xs ++ c :: ys) :
    Valid (leafGeometry ps) (deleteCell l.page xs.length) ∧
      (deleteCell l.page xs.length).cells = xs ++ ys := by
  have hlt : xs.length < l.page.ncell := by
    rw [← h.valid.length_cells, hcells]
    simp
  refine ⟨valid_deleteCell h.valid hlt, ?_⟩
  rw [SlottedPage.cells_deleteCell h.valid.slots hlt, hcells,
    eraseIdx_append_of_length_le (by simp)]
  simp

/-- The place of the new cell in a leaf: its old cell is gone, and put there it makes the entries of
the map. -/
theorem LeafOk.cleared (h : LeafOk ps cmp lo hi l) (cell : LeafCell) :
    ∃ xs ys, Valid (leafGeometry ps) (l.cleared cmp cell.1) ∧
      (l.cleared cmp cell.1).cells = xs ++ ys ∧ xs.length = pgFind cmp l.keys cell.1 ∧
      upsert cmp cell l.page.cells = xs ++ cell :: ys := by
  obtain ⟨xs, ys, hlen, hxs, hys, ⟨hexact, c, heq, hcells⟩ | ⟨hexact, hcells⟩⟩ := h.locate cell.1
  · obtain ⟨hvalid, hcells'⟩ := h.cells_deleteCell hcells
    rw [Leaf.cleared, if_pos hexact, ← hlen]
    refine ⟨xs, ys, hvalid, hcells', rfl, ?_⟩
    rw [hcells, upsert_append_right hxs, upsert_cons_eq heq, upsert_of_gt hys]
  · rw [Leaf.cleared, hexact, if_neg Bool.false_ne_true]
    refine ⟨xs, ys, h.valid, hcells, hlen, ?_⟩
    rw [hcells, upsert_append_right hxs, upsert_of_gt hys]

/-- The cells of a leaf with a new one are a map for the same range. -/
theorem LeafOk.upsert (h : LeafOk ps cmp lo hi l) (hkey : InRange cmp lo hi cell.1)
    (hadm : Admitted ps cell.1) :
    Increasing cmp (upsert cmp cell l.page.cells) ∧
      ∀ c ∈ upsert cmp cell l.page.cells, InRange cmp lo hi c.1 ∧ Admitted ps c.1 := by
  refine ⟨increasing_upsert h.increasing, fun c hc => ?_⟩
  rcases mem_upsert.mp hc with rfl | hc
  · exact ⟨hkey, hadm⟩
  · exact ⟨h.range c hc.1, h.admitted c hc.1⟩

/-- The two pages of a split leaf. The separator is a key of the first, and the second is not empty. -/
theorem splitLeaf_ok {p : SlottedPage.Page LeafCell} {ins : Nat} {out : List LeafCell} (pgno pgno' : Nat)
    (hout : p.cells.insertIdx ins cell = out) (hlen : 2 ≤ out.length)
    (hfit : LeafHalvesFit ps p ins cell) (hinc : Increasing cmp out)
    (hall : ∀ c ∈ out, InRange cmp lo hi c.1 ∧ Admitted ps c.1) :
    let halves := splitLeaf ps p ins cell
    SepRange cmp lo hi halves.2.1 ∧ Admitted ps halves.2.1 ∧
      LeafOk ps cmp lo (some halves.2.1) ⟨pgno, halves.1⟩ ∧
      LeafOk ps cmp (some halves.2.1) hi ⟨pgno', halves.2.2⟩ ∧
      halves.1.cells ++ halves.2.2.cells = out := by
  simp only [LeafHalvesFit, hout] at hfit
  simp only [splitLeaf, hout]
  have hcut : 1 ≤ leafCut out.length ∧ leafCut out.length < out.length := by
    simp only [leafCut]
    split <;> split <;> omega
  generalize leafCut out.length = cut at hcut hfit
  obtain ⟨hcellsL, hvalidL⟩ := fill_fits hfit.1
  obtain ⟨hcellsR, hvalidR⟩ := fill_fits hfit.2
  -- the separator is the last cell of the first part
  obtain ⟨xs, s, hL⟩ : ∃ xs s, out.take cut = xs ++ [s] := by
    rcases eq_nil_or_concat (out.take cut) with hnil | ⟨xs, s, hxs⟩
    · have := congrArg List.length hnil
      rw [length_take, length_nil] at this
      omega
    · exact ⟨xs, s, by simpa using hxs⟩
  obtain ⟨r, ys, hR⟩ : ∃ r ys, out.drop cut = r :: ys := by
    cases hd : out.drop cut with
    | nil =>
      have := congrArg List.length hd
      rw [length_drop, length_nil] at this
      omega
    | cons r ys => exact ⟨r, ys, rfl⟩
  have hsplit : out = xs ++ [s] ++ r :: ys := by rw [← hL, ← hR, take_append_drop]
  have hsep : out.getD (cut - 1) default = s := by
    have hxs : xs.length = cut - 1 := by
      have := congrArg List.length hL
      simp only [length_take, length_append, length_cons, length_nil] at this
      omega
    rw [← hxs, hsplit]
    simp [List.getD]
  rw [hsep, hcellsL, hcellsR, hL, hR, ← hsplit]
  rw [hL] at hcellsL hvalidL
  rw [hR] at hcellsR hvalidR
  have hmem : ∀ c, c ∈ out ↔ c ∈ xs ++ [s] ∨ c ∈ r :: ys := by
    intro c
    rw [hsplit, mem_append]
  rw [Increasing, hsplit, pairwise_append] at hinc
  obtain ⟨hincL, hincR, hcross⟩ := hinc
  have hs := hall s ((hmem s).mpr (.inl (by simp)))
  have hsr : ∀ c ∈ r :: ys, cmp s.1 c.1 = .lt := fun c hc => hcross s (by simp) c hc
  have hbelow : ∀ c ∈ xs ++ [s], (cmp c.1 s.1).isLE := by
    intro c hc
    rcases mem_append.mp hc with hc | hc
    · rw [(pairwise_append.mp hincL).2.2 c hc s (by simp)]
      rfl
    · rw [mem_singleton.mp hc, show cmp s.1 s.1 = .eq from Std.ReflCmp.compare_self]
      rfl
  refine ⟨⟨hs.1.above, fun h hh => ?_⟩, hs.2, ?_, ?_, rfl⟩
  · have hr := hall r ((hmem r).mpr (.inr (by simp)))
    exact Std.TransCmp.lt_of_lt_of_isLE (hsr r (by simp)) (hr.1.below h hh)
  · refine ⟨hvalidL, by rw [hcellsL]; exact hincL, fun c hc => ?_, fun c hc => ?_⟩
    · rw [hcellsL] at hc
      have hcall := hall c ((hmem c).mpr (.inl hc))
      exact ⟨hcall.1.above, fun h hh => by obtain rfl : s.1 = h := by simpa using hh
                                           exact hbelow c hc⟩
    · rw [hcellsL] at hc
      exact (hall c ((hmem c).mpr (.inl hc))).2
  · refine ⟨hvalidR, by rw [hcellsR]; exact hincR, fun c hc => ?_, fun c hc => ?_⟩
    · rw [hcellsR] at hc
      have hcall := hall c ((hmem c).mpr (.inr hc))
      exact ⟨fun h hh => by obtain rfl : s.1 = h := by simpa using hh
                            exact hsr c hc, hcall.1.below⟩
    · rw [hcellsR] at hc
      exact (hall c ((hmem c).mpr (.inr hc))).2

theorem insertLeaf_ok (hps : 512 ≤ ps) (h : LeafOk ps cmp lo hi l) (hkey : InRange cmp lo hi cell.1)
    (hadm : Admitted ps cell.1) (next : Nat) (hfit : SplitsFit ps cmp 0 next l cell) :
    InsertedOk ps cmp (LeafOk ps cmp) (fun l => l.page.cells) lo hi (upsert cmp cell l.page.cells)
      (insertLeaf ps cmp next l cell) := by
  obtain ⟨xs, ys, hvalid, hcells, hlen, hout⟩ := h.cleared cell
  obtain ⟨hinc, hall⟩ := h.upsert hkey hadm
  have hidx : pgFind cmp l.keys cell.1 ≤ (l.cleared cmp cell.1).ncell := by
    rw [← hlen, ← hvalid.length_cells, hcells]
    simp
  have hins : (l.cleared cmp cell.1).cells.insertIdx (pgFind cmp l.keys cell.1) cell
      = upsert cmp cell l.page.cells := by
    rw [hcells, ← hlen, insertIdx_append, hout]
  by_cases hroom : Room (leafGeometry ps) (l.cleared cmp cell.1).cells cell
  · obtain ⟨hok, hcells', hvalid'⟩ := insertCell_room hvalid hidx hroom
    rw [hins] at hcells'
    have heq : insertLeaf ps cmp next l cell
        = ⟨{ l with page := (insertCell (leafGeometry ps) (l.cleared cmp cell.1)
            (pgFind cmp l.keys cell.1) cell).2 }, none, next⟩ := by
      rw [insertLeaf]
      split
      · next p hp => rw [hp]
      · next p hp => rw [hp] at hok; simp at hok
    rw [heq]
    refine ⟨⟨hvalid', ?_, fun c hc => ?_, fun c hc => ?_⟩, hcells'⟩
    · rw [hcells']
      exact hinc
    · exact (hall c (by rw [← hcells']; exact hc)).1
    · exact (hall c (by rw [← hcells']; exact hc)).2
  · -- the page is split; its holes are closed before, which changes no cell
    have hfull := insertCell_full (i := pgFind cmp l.keys cell.1) hvalid hroom
    have hlen2 : 2 ≤ (upsert cmp cell l.page.cells).length := by
      by_contra hlt
      have hnil : (l.cleared cmp cell.1).cells = [] := by
        rw [hout] at hlt
        rw [hcells]
        apply eq_nil_of_length_eq_zero
        simp only [length_append, length_cons] at hlt ⊢
        omega
      exact hroom (hnil ▸ room_empty_leaf hps hadm)
    have hsplit := splitLeaf_ok l.pgno next
      (p := defrag (leafGeometry ps) (l.cleared cmp cell.1)) hins hlen2 (hfit hroom) hinc hall
    have heq : insertLeaf ps cmp next l cell
        = ⟨{ l with page := (splitLeaf ps (defrag (leafGeometry ps) (l.cleared cmp cell.1))
              (pgFind cmp l.keys cell.1) cell).1 },
            some ((splitLeaf ps (defrag (leafGeometry ps) (l.cleared cmp cell.1))
              (pgFind cmp l.keys cell.1) cell).2.1,
              ⟨next, (splitLeaf ps (defrag (leafGeometry ps) (l.cleared cmp cell.1))
                (pgFind cmp l.keys cell.1) cell).2.2⟩), next + 1⟩ := by
      simp only [insertLeaf, hfull]
    rw [heq]
    exact hsplit

end Leaf

section Interior

variable {α : Type} {n : Interior α} {i : Nat} {a b : α} {k : Bytes}

/-- A new child leaves the separators. -/
theorem keys_setChild (n : Interior α) (i : Nat) (a : α) :
    (n.setChild i a).page.cells.map Prod.snd = n.page.cells.map Prod.snd := by
  unfold Interior.setChild
  split
  · show ((n.page.slots.modify i _).take n.page.ncell).map Prod.snd = _
    rw [take_modify]
    show (n.page.cells.modify i _).map Prod.snd = _
    apply ext_getElem?
    intro j
    simp only [getElem?_map, getElem?_modify]
    cases n.page.cells[j]? <;> simp
    split <;> rfl
  · rfl

theorem used_setChild (n : Interior α) (i : Nat) (a : α) :
    (intGeometry ps α).used (n.setChild i a).page.cells = (intGeometry ps α).used n.page.cells := by
  have hsize : ∀ cells : List (α × Bytes),
      cells.map (intGeometry ps α).size = (cells.map Prod.snd).map intCellSize := by
    intro cells
    rw [map_map]
    rfl
  exact used_congr (by rw [hsize, hsize, keys_setChild])

theorem valid_setChild (h : Valid (intGeometry ps α) n.page) (i : Nat) (a : α) :
    Valid (intGeometry ps α) (n.setChild i a).page := by
  refine ⟨?_, ?_, by rw [used_setChild]; unfold Interior.setChild; split <;> exact h.content⟩
  · unfold Interior.setChild
    split
    · show n.page.ncell ≤ (n.page.slots.modify i _).length
      rw [length_modify]
      exact h.slots
    · exact h.slots
  · unfold Interior.setChild
    split <;> exact h.header

theorem ncell_setChild (n : Interior α) (i : Nat) (a : α) :
    (n.setChild i a).page.ncell = n.page.ncell := by
  unfold Interior.setChild
  split <;> rfl

/-- What the first new child is does not matter for the cells with the second. -/
theorem cellsWith_setChild {m : Interior α} (hn : n.page.cells.length = n.page.ncell)
    (hm : m.page.cells.length = m.page.ncell) (hi : i ≤ n.page.cells.length)
    (hcells : m.page.cells = (n.setChild i a).page.cells) (hright : m.right = (n.setChild i a).right) :
    m.cellsWith i a k b = n.cellsWith i a k b ∧ m.rightWith i b = n.rightWith i b := by
  obtain ⟨xs, ys, hxs, rfl⟩ := exists_append_of_le hi
  cases ys with
  | nil =>
    have hlast : xs.length = n.page.cells.length := by rw [hxs]; simp
    rw [hlast] at hcells hright ⊢
    rw [setChild_last hn] at hcells hright
    have hmlast := cellsWith_last (a := a) (k := k) (b := b) hm
    rw [hcells] at hmlast
    exact ⟨hmlast.1.trans (cellsWith_last hn).1.symm,
      hmlast.2.trans (cellsWith_last (a := a) (k := k) hn).2.symm⟩
  | cons c ys =>
    obtain ⟨hset, hsetr⟩ := cells_setChild hn hxs a
    rw [hset] at hcells
    have hm' := cellsWith_append (a := a) (k := k) (b := b) hm hcells
    have hn' := cellsWith_append (a := a) (k := k) (b := b) hn hxs
    exact ⟨hm'.1.trans hn'.1.symm, by rw [hm'.2, hn'.2, hright, hsetr]⟩

variable [Inhabited α] {r : Inserted α}

section

variable (hvalid : Valid (intGeometry ps α) n.page) (hi : i ≤ n.page.cells.length)
  (hsplit : r.split = some (k, b))

include hvalid hi hsplit

/-- With room for the separator the page has the cells with the new one. -/
theorem insertInterior_room (hroom : Room (intGeometry ps α) n.page.cells (r.node, k)) :
    ∃ m, insertInterior ps n i r = ⟨m, none, r.next⟩ ∧ Valid (intGeometry ps α) m.page ∧
      m.page.cells = n.cellsWith i r.node k b ∧ m.right = n.rightWith i b := by
  have hn := hvalid.length_cells
  have hv := valid_setChild hvalid i r.node
  have hroom' : Room (intGeometry ps α) (n.setChild i r.node).page.cells (r.node, k) := by
    have hlen : (n.setChild i r.node).page.cells.length = n.page.cells.length := by
      rw [hv.length_cells, ncell_setChild, hn]
    rw [Room, Geometry.need, used_setChild, hlen]
    exact hroom
  obtain ⟨hok, hcells, hv'⟩ := insertCell_room (i := i) hv
    (by rw [ncell_setChild, ← hn]; exact hi) hroom'
  refine ⟨Interior.setChild { n.setChild i r.node with
    page := (insertCell (intGeometry ps α) (n.setChild i r.node).page i (r.node, k)).2 } (i + 1) b,
    ?_, valid_setChild hv' _ _, ?_⟩
  · simp only [insertInterior, hsplit]
    split
    · next p hp => rw [hp]
    · next p hp => rw [hp] at hok; simp at hok
  · -- the cell behind the new one, or the right pointer, gets the second half
    generalize hp : (insertCell (intGeometry ps α) (n.setChild i r.node).page i (r.node, k)).2 = p
    rw [hp] at hcells hv'
    obtain ⟨xs, ys, hxs, rfl⟩ := exists_append_of_le hi
    cases ys with
    | nil =>
      have hlast : xs.length = n.page.cells.length := by rw [hxs]; simp
      rw [hlast] at hcells ⊢
      rw [setChild_last hn, insertIdx_length_self] at hcells
      have hlen : n.page.cells.length + 1 = p.cells.length := by rw [hcells]; simp
      have hset := setChild_last (n := { n.setChild n.page.cells.length r.node with page := p })
        hv'.length_cells b
      rw [← hlen] at hset
      obtain ⟨hwith, hright⟩ := cellsWith_last (a := r.node) (k := k) (b := b) hn
      rw [hwith, hright, hset]
      exact ⟨hcells, rfl⟩
    | cons c ys =>
      obtain ⟨hset, hsetr⟩ := cells_setChild hn hxs r.node
      rw [hset, insertIdx_append] at hcells
      have hsplit' : p.cells = (xs ++ [(r.node, k)]) ++ (r.node, c.2) :: ys := by rw [hcells]; simp
      have hset' := cells_setChild (n := { n.setChild xs.length r.node with page := p })
        hv'.length_cells hsplit' b
      rw [length_append, length_singleton] at hset'
      obtain ⟨hwith, hright⟩ := cellsWith_append (a := r.node) (k := k) (b := b) hn hxs
      rw [hwith, hright, hset'.1, hset'.2]
      exact ⟨by simp, hsetr⟩

/-- Without room the page is split around the middle of these cells. -/
theorem insertInterior_full (hroom : ¬ Room (intGeometry ps α) n.page.cells (r.node, k)) :
    let cells := n.cellsWith i r.node k b
    ∃ pgno, insertInterior ps n i r =
      ⟨⟨pgno, fill (intGeometry ps α) (cells.take (cells.length / 2)),
          (cells.getD (cells.length / 2) default).1⟩,
        some ((cells.getD (cells.length / 2) default).2,
          ⟨r.next, fill (intGeometry ps α) (cells.drop (cells.length / 2 + 1)), n.rightWith i b⟩),
        r.next + 1⟩ := by
  intro cells
  have hn := hvalid.length_cells
  have hv := valid_setChild hvalid i r.node
  have hlen : (n.setChild i r.node).page.cells.length = n.page.cells.length := by
    rw [hv.length_cells, ncell_setChild, hn]
  have hroom' : ¬ Room (intGeometry ps α) (n.setChild i r.node).page.cells (r.node, k) := by
    rw [Room, Geometry.need, used_setChild, hlen]
    exact hroom
  have hfull := insertCell_full (i := i) hv hroom'
  have hm := hv.defrag.length_cells
  obtain ⟨hwith, hright⟩ := cellsWith_setChild (a := r.node) (k := k) (b := b)
    (m := { n.setChild i r.node with page := defrag (intGeometry ps α) (n.setChild i r.node).page })
    hn hm hi rfl rfl
  have heq : splitInterior ps
      { n.setChild i r.node with page := defrag (intGeometry ps α) (n.setChild i r.node).page }
      i r.node k b r.next = _ := splitInterior_eq hm (by rw [cells_defrag, hlen]; exact hi)
  rw [hwith, hright] at heq
  exact ⟨_, by simp only [insertInterior, hsplit, hfull, heq]; rfl⟩

end

end Interior

/-! ## The child that is responsible for a key -/

section Descend

variable [Std.TransCmp cmp] {α : Type} {P : Option Bytes → Option Bytes → α → Prop}
  {f : α → List LeafCell} {lo hi : Option Bytes} {n : Interior α} {key : Bytes}

/-- The child `pg_find` goes down to, with its range, and what the page is after the child was
replaced: by another one for the range, or by two with a separator inside it. In both cases only the
entries of the child are others. -/
theorem InteriorOk.descend (h : InteriorOk ps cmp P lo hi n) (hgood : Good cmp f P)
    (hkey : InRange cmp lo hi key) :
    pgFind cmp n.keys key ≤ n.page.cells.length ∧
    ∃ lo' hi', InRange cmp lo' hi' key ∧ P lo' hi' (n.child (pgFind cmp n.keys key)) ∧
      ∃ es es', chainEntries f n.page.cells n.right
          = es ++ f (n.child (pgFind cmp n.keys key)) ++ es' ∧
        (∀ e ∈ es, cmp e.1 key = .lt) ∧ (∀ e ∈ es', cmp e.1 key = .gt) ∧
        (∀ a, P lo' hi' a →
          InteriorOk ps cmp P lo hi (n.setChild (pgFind cmp n.keys key) a) ∧
          chainEntries f (n.setChild (pgFind cmp n.keys key) a).page.cells
            (n.setChild (pgFind cmp n.keys key) a).right = es ++ f a ++ es') ∧
        ∀ a k b, SepRange cmp lo' hi' k → Admitted ps k → P lo' (some k) a → P (some k) hi' b →
          let cells := n.cellsWith (pgFind cmp n.keys key) a k b
          Chain cmp P lo hi cells (n.rightWith (pgFind cmp n.keys key) b) ∧
          (∀ c ∈ cells, Admitted ps c.2) ∧
          chainEntries f cells (n.rightWith (pgFind cmp n.keys key) b) = es ++ (f a ++ f b) ++ es' := by
  have hn := h.valid.length_cells
  obtain ⟨xs, ys, hcells, hlen, hxs, hys⟩ := pgFind_spec (Chain.pairwise _ h.chain) key
  have hkeys : n.keys = n.page.cells.map Prod.snd := rfl
  rw [← hkeys] at hlen
  rw [← hlen]
  have hchain := h.chain
  rw [hcells, chain_append] at hchain
  obtain ⟨hbefore, hrest⟩ := hchain
  have habove := lastSep_lt xs hkey.above hxs
  have hes := hgood.before xs hbefore hxs
  have hadm := h.admitted
  rw [hcells] at hadm
  refine ⟨by rw [hcells]; simp, lastSep lo xs, ?_⟩
  cases ys with
  | nil =>
    -- behind the last separator: the right child
    have hlast : xs.length = n.page.cells.length := by rw [hcells]; simp
    have hxs' : n.page.cells = xs := by simpa using hcells
    refine ⟨hi, ⟨habove, hkey.below⟩, ?_, xs.flatMap (fun c => f c.1), [], ?_, hes, by simp, ?_, ?_⟩
    · rw [hlast, Interior.child_last]
      exact hrest
    · rw [hlast, Interior.child_last, hxs', chainEntries, append_nil]
    · intro a ha
      have hset := setChild_last hn a
      rw [← hlast] at hset
      have hv := valid_setChild h.valid xs.length a
      rw [hset] at hv ⊢
      refine ⟨⟨hv, ?_, h.admitted⟩, by rw [chainEntries, hxs', append_nil]⟩
      show Chain cmp P lo hi n.page.cells a
      rw [hcells, chain_append]
      exact ⟨hbefore, ha⟩
    · intro a k b hsep hk ha hb cells
      obtain ⟨hwith, hright⟩ := cellsWith_last (a := a) (k := k) (b := b) hn
      rw [← hlast, hxs'] at hwith
      rw [← hlast] at hright
      rw [show cells = _ from hwith, hright]
      refine ⟨(chain_append _ _ _ _).mpr ⟨hbefore, hsep, ha, hb⟩, fun c hc => ?_, ?_⟩
      · rcases mem_append.mp hc with hc | hc
        · exact hadm c (by simp [hc])
        · rw [mem_singleton.mp hc]
          exact hk
      · simp [chainEntries]
  | cons c ys =>
    obtain ⟨hsepc, hc, hys'⟩ := hrest
    have hle : (cmp key c.2).isLE := by
      have hswap : cmp key c.2 = (cmp c.2 key).swap := Std.OrientedCmp.eq_swap
      rw [hswap]
      cases hcmp : cmp c.2 key <;> simp_all
    have hes' : ∀ e ∈ chainEntries f ys n.right, cmp e.1 key = .gt := by
      intro e he
      have hrange := (hgood.chain ys hys').2 e he
      rw [Std.OrientedCmp.gt_iff_lt]
      exact Std.TransCmp.lt_of_isLE_of_lt hle (hrange.above _ rfl)
    refine ⟨some c.2, ⟨habove, fun k hk => ?_⟩, ?_, xs.flatMap (fun c => f c.1),
      chainEntries f ys n.right, ?_, hes, hes', ?_, ?_⟩
    · obtain rfl : c.2 = k := by simpa using hk
      exact hle
    · rw [Interior.child_append hcells]
      exact hc
    · rw [Interior.child_append hcells, hcells]
      simp [chainEntries]
    · intro a ha
      obtain ⟨hset, hsetr⟩ := cells_setChild hn hcells a
      rw [hset, hsetr]
      refine ⟨⟨valid_setChild h.valid _ _, ?_, ?_⟩, by simp [chainEntries]⟩
      · rw [hset, hsetr, chain_append]
        exact ⟨hbefore, hsepc, ha, hys'⟩
      · intro d hd
        rw [hset, mem_append, mem_cons] at hd
        rcases hd with hd | rfl | hd
        · exact hadm d (by simp [hd])
        · exact hadm c (by simp)
        · exact hadm d (by simp [hd])
    · intro a k b hsep hk ha hb cells
      obtain ⟨hwith, hright⟩ := cellsWith_append (a := a) (k := k) (b := b) hn hcells
      rw [show cells = _ from hwith, hright]
      have hkc := hsep.below _ rfl
      refine ⟨(chain_append _ _ _ _).mpr ⟨hbefore, ⟨hsep.above, fun h' hh' => ?_⟩, ha,
        ⟨fun l hl => ?_, hsepc.below⟩, hb, hys'⟩, fun d hd => ?_, ?_⟩
      · exact Std.TransCmp.lt_trans hkc (hsepc.below h' hh')
      · obtain rfl : k = l := by simpa using hl
        exact hkc
      · rw [mem_append, mem_cons, mem_cons] at hd
        rcases hd with hd | rfl | rfl | hd
        · exact hadm d (by simp [hd])
        · exact hk
        · exact hadm c (by simp)
        · exact hadm d (by simp [hd])
      · simp [chainEntries]

/-- An insertion into a child is one into the page. -/
theorem insertInterior_ok [Inhabited α] {cell : LeafCell} {r : Inserted α}
    (h : InteriorOk ps cmp P lo hi n) (hgood : Good cmp f P) (hkey : InRange cmp lo hi cell.1)
    (hchild : ∀ lo' hi', InRange cmp lo' hi' cell.1 → P lo' hi' (n.child (pgFind cmp n.keys cell.1)) →
      InsertedOk ps cmp P f lo' hi' (upsert cmp cell (f (n.child (pgFind cmp n.keys cell.1)))) r)
    (hfit : ∀ sep right, r.split = some (sep, right) →
      ¬ Room (intGeometry ps α) n.page.cells (r.node, sep) →
      InteriorHalvesFit ps n (pgFind cmp n.keys cell.1) r.node sep right) :
    InsertedOk ps cmp (InteriorOk ps cmp P) (fun n => chainEntries f n.page.cells n.right) lo hi
      (upsert cmp cell (chainEntries f n.page.cells n.right))
      (insertInterior ps n (pgFind cmp n.keys cell.1) r) := by
  obtain ⟨hi', lo', hi'', hkey', hP, es, es', hentries, hes, hes', hone, htwo⟩ := h.descend hgood hkey
  have hr := hchild _ _ hkey' hP
  have hout : upsert cmp cell (chainEntries f n.page.cells n.right)
      = es ++ upsert cmp cell (f (n.child (pgFind cmp n.keys cell.1))) ++ es' := by
    rw [hentries, upsert_append_left hes', upsert_append_right hes]
  rw [hout]
  cases hsplit : r.split with
  | none =>
    simp only [InsertedOk, hsplit] at hr
    obtain ⟨hok, hent⟩ := hone _ hr.1
    have heq : insertInterior ps n (pgFind cmp n.keys cell.1) r
        = ⟨n.setChild (pgFind cmp n.keys cell.1) r.node, none, r.next⟩ := by
      simp only [insertInterior, hsplit]
    rw [heq]
    exact ⟨hok, hent.trans (by rw [hr.2])⟩
  | some sr =>
    obtain ⟨k, b⟩ := sr
    simp only [InsertedOk, hsplit] at hr
    obtain ⟨hsep, hk, ha, hb, hab⟩ := hr
    obtain ⟨hchain, hadm, hent⟩ := htwo _ _ _ hsep hk ha hb
    rw [hab] at hent
    by_cases hroom : Room (intGeometry ps α) n.page.cells (r.node, k)
    · obtain ⟨m, heq, hv, hcells, hright⟩ := insertInterior_room h.valid hi' hsplit hroom
      rw [heq]
      refine ⟨⟨hv, by rw [hcells, hright]; exact hchain, by rw [hcells]; exact hadm⟩, ?_⟩
      show chainEntries f m.page.cells m.right = _
      rw [hcells, hright]
      exact hent
    · -- the page is cut at its middle separator
      obtain ⟨pgno, heq⟩ := insertInterior_full h.valid hi' hsplit hroom
      have hhalves := hfit k b hsplit hroom
      have hlen := length_cellsWith (a := r.node) (k := k) (b := b) h.valid.length_cells hi'
      rw [heq]
      simp only [InteriorHalvesFit] at hhalves
      generalize n.cellsWith (pgFind cmp n.keys cell.1) r.node k b = cells at *
      obtain ⟨hcellsL, hvalidL⟩ := fill_fits hhalves.1
      obtain ⟨hcellsR, hvalidR⟩ := fill_fits hhalves.2
      have hmid : cells.length / 2 < cells.length := by omega
      obtain ⟨xs, ys, hcut, hxs⟩ := exists_append_of_le (Nat.le_of_lt hmid)
      obtain ⟨c, ys, rfl⟩ : ∃ c ys', ys = c :: ys' := by
        cases ys with
        | nil =>
          have := congrArg List.length hcut
          rw [append_nil] at this
          omega
        | cons c ys => exact ⟨c, ys, rfl⟩
      have hget : cells.getD (cells.length / 2) default = c := by
        rw [← hxs, hcut]
        simp [List.getD]
      have htake : cells.take (cells.length / 2) = xs := by
        rw [← hxs, hcut, take_left]
      have hdrop : cells.drop (cells.length / 2 + 1) = ys := by
        rw [← hxs, hcut, drop_append]
        simp
      rw [htake] at hcellsL hvalidL
      rw [hdrop] at hcellsR hvalidR
      rw [hget, htake, hdrop]
      rw [hcut] at hchain hadm hent
      obtain ⟨hsepc, hL, hR⟩ := hchain.cut
      refine ⟨hsepc, hadm c (by simp), ⟨hvalidL, ?_, ?_⟩, ⟨hvalidR, ?_, ?_⟩, ?_⟩
      · rw [hcellsL]
        exact hL
      · rw [hcellsL]
        exact fun d hd => hadm d (by simp [hd])
      · rw [hcellsR]
        exact hR
      · rw [hcellsR]
        exact fun d hd => hadm d (by simp [hd])
      · simp only [hcellsL, hcellsR]
        rw [← hent]
        simp [chainEntries]

end Descend

theorem insertRec_ok [Std.TransCmp cmp] (hps : 512 ≤ ps) {cell : LeafCell}
    (hadm : Admitted ps cell.1) (next : Nat) (d : Nat) : ∀ {lo hi : Option Bytes} {t : Tree d},
    TreeOk ps cmp d lo hi t → InRange cmp lo hi cell.1 → SplitsFit ps cmp d next t cell →
    InsertedOk ps cmp (TreeOk ps cmp d) (Tree.entries d) lo hi (upsert cmp cell (Tree.entries d t))
      (insertRec ps cmp d next t cell) := by
  induction d with
  | zero => intro lo hi t h hkey hfit; exact insertLeaf_ok hps h hkey hadm next hfit
  | succ d ih =>
    intro lo hi t h hkey hfit
    have hok := insertInterior_ok (n := t) h (good_treeOk d) hkey
      (fun lo' hi' hkey' h' => ih h' hkey' hfit.1) (fun sep right hsplit => by
        have hhalves := hfit.2
        rw [hsplit] at hhalves
        exact hhalves)
    have hentries : Tree.entries (d + 1)
        = fun n => chainEntries (Tree.entries d) (Interior.page n).cells (Interior.right n) :=
      funext (entries_interior d)
    rw [hentries]
    exact hok

/-! ## Removal -/

section Remove

variable [Std.TransCmp cmp] {key : Bytes}

/-- What a removal leaves: the subtree without the key, or the same subtree if the key is not there. -/
structure RemovedOk (cmp : Bytes → Bytes → Ordering) {α : Type}
    (P : Option Bytes → Option Bytes → α → Prop) (f : α → List LeafCell) (lo hi : Option Bytes)
    (key : Bytes) (t : α) (r : Bool × α) : Prop where
  ok : P lo hi r.2
  entries : f r.2 = erase cmp key (f t)
  found : r.1 = true ↔ ∃ e ∈ f t, cmp e.1 key = .eq
  missing : r.1 = false → r.2 = t

theorem removeLeaf_ok {lo hi : Option Bytes} {l : Leaf} (h : LeafOk ps cmp lo hi l) (key : Bytes) :
    RemovedOk cmp (LeafOk ps cmp) (fun l => l.page.cells) lo hi key l (removeRec cmp 0 l key) := by
  obtain ⟨xs, ys, hlen, hxs, hys, hplace⟩ := h.locate key
  have hxsne : ∀ p ∈ xs, cmp p.1 key ≠ .eq := fun p hp => by simp [hxs p hp]
  have hysne : ∀ p ∈ ys, cmp p.1 key ≠ .eq := fun p hp => by simp [hys p hp]
  rcases hplace with ⟨hexact, c, heq, hcells⟩ | ⟨hexact, hcells⟩
  · obtain ⟨hvalid, hcells'⟩ := h.cells_deleteCell hcells
    have hsub : (xs ++ ys).Sublist l.page.cells := by
      rw [hcells]
      exact (sublist_cons_self c ys).append_left xs
    have hres : removeRec cmp 0 l key = (true, { l with page := deleteCell l.page xs.length }) := by
      rw [hlen]
      exact if_pos hexact
    rw [hres]
    refine ⟨⟨hvalid, ?_, ?_, ?_⟩, ?_, ?_, by simp⟩
    · rw [hcells']
      exact h.increasing.sublist hsub
    · rw [hcells']
      exact fun c hc => h.range c (hsub.subset hc)
    · rw [hcells']
      exact fun c hc => h.admitted c (hsub.subset hc)
    · show (deleteCell l.page xs.length).cells = erase cmp key l.page.cells
      rw [hcells', hcells, erase_append, erase_eq_self hxsne, erase_cons_eq heq, erase_eq_self hysne]
    · exact ⟨fun _ => ⟨c, by rw [hcells]; simp, heq⟩, fun _ => rfl⟩
  · have hne : ∀ p ∈ l.page.cells, cmp p.1 key ≠ .eq := by
      intro p hp
      rw [hcells, mem_append] at hp
      exact hp.elim (hxsne p) (hysne p)
    have hres : removeRec cmp 0 l key = (false, l) := if_neg (by simp [hexact])
    rw [hres]
    refine ⟨h, (erase_eq_self hne).symm, ?_, fun _ => rfl⟩
    exact ⟨by simp, fun ⟨e, he, heq⟩ => absurd heq (hne e he)⟩

theorem setChild_self {α : Type} (n : Interior α) (i : Nat) : n.setChild i (n.child i) = n := by
  unfold Interior.setChild
  split
  · next hi =>
    have hslots : n.page.slots.modify i (fun cell => (n.child i, cell.2)) = n.page.slots := by
      apply ext_getElem?
      intro j
      rw [getElem?_modify]
      by_cases hij : i = j
      · subst hij
        cases hcell : n.page.slots[i]? with
        | none => simp
        | some c =>
          have hcells : n.page.cells[i]? = some c := by
            rw [SlottedPage.Page.cells, getElem?_take_of_lt hi, hcell]
          simp [Interior.child, hcells]
      · simp [hij]
    rw [hslots]
  · next hi =>
    have hnone : n.page.cells[i]? = none := by
      rw [getElem?_eq_none_iff, SlottedPage.Page.cells, length_take]
      omega
    simp [Interior.child, hnone]

theorem removeRec_ok (d : Nat) : ∀ {lo hi : Option Bytes} {t : Tree d}, TreeOk ps cmp d lo hi t →
    InRange cmp lo hi key →
    RemovedOk cmp (TreeOk ps cmp d) (Tree.entries d) lo hi key t (removeRec cmp d t key) := by
  induction d with
  | zero => intro lo hi t h _; exact removeLeaf_ok h key
  | succ d ih =>
    intro lo hi t h hkey
    obtain ⟨-, lo', hi', hkey', hP, es, es', hentries, hes, hes', hone, -⟩ :=
      InteriorOk.descend (n := t) h (good_treeOk d) hkey
    obtain ⟨hok, hent, hfound, hmissing⟩ := ih hP hkey'
    obtain ⟨hok', hent'⟩ := hone _ hok
    have hall : Tree.entries (d + 1) t
        = es ++ Tree.entries d (Interior.child t (pgFind cmp (Interior.keys t) key)) ++ es' :=
      (entries_interior d t).trans hentries
    have hesne : ∀ p ∈ es, cmp p.1 key ≠ .eq := fun p hp => by simp [hes p hp]
    have hesne' : ∀ p ∈ es', cmp p.1 key ≠ .eq := fun p hp => by simp [hes' p hp]
    refine ⟨hok', ?_, ?_, fun hfalse => ?_⟩
    · rw [hall, erase_append, erase_append, erase_eq_self hesne, erase_eq_self hesne', ← hent]
      exact (entries_interior d _).trans hent'
    · rw [hall]
      refine hfound.trans ⟨fun ⟨e, he, heq⟩ => ⟨e, by simp [he], heq⟩, fun ⟨e, he, heq⟩ => ?_⟩
      rw [mem_append, mem_append] at he
      rcases he with (he | he) | he
      · exact absurd heq (hesne e he)
      · exact ⟨e, he, heq⟩
      · exact absurd heq (hesne' e he)
    · have hchild := hmissing hfalse
      show Interior.setChild t _ (removeRec cmp d _ key).2 = t
      rw [hchild]
      exact setChild_self _ _

end Remove

end Tdb.BTree
