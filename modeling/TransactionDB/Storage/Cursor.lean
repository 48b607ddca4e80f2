import TransactionDB.Lib.Enumerate
import TransactionDB.Lib.Keyed
import TransactionDB.Storage.BTreeRuns

/-!
# TransactionDB — cursors of a B-tree

`src/storage/tdb_btree.c`, the cursor. It has the numbers of the pages on the way to its leaf, and
on each of them the index of the child or cell it stands on; pages are fetched by their number. The
arrays have `TDB_MAXDEPTH` levels.

Over the leaves of a tree a cursor is a place: some leaves in front of its own, some behind it (`Path`).
One level further up or down, and one leaf further, it stays on the tree; so it yields the entries
from its place on, past leaves that are empty. A tree of distinct pages is never too deep for the
arrays, since page numbers have 32 bits.
-/

namespace Tdb.BTree

open SlottedPage SortedEntries Enumerate List

variable {d fuel : Nat} {es : List LeafCell}

/-! ## Pages by number -/

/-- A page as a cursor reads it: cells, and for an interior page the numbers of the children. -/
inductive Node where
  | leaf (cells : List LeafCell)
  | interior (cells : List (Nat × Bytes)) (right : Nat)
  deriving DecidableEq, Repr

/-- `pg_ncell`. -/
def Node.ncell : Node → Nat
  | .leaf cells => cells.length
  | .interior cells _ => cells.length

/-- `intcell_child`, or `pg_right` behind the last cell. -/
def Node.child : Node → Nat → Nat
  | .leaf _, _ => 0
  | .interior cells right, i => match cells[i]? with
    | some c => c.1
    | none => right

/-- The keys that `cell_key` reads. -/
def Node.keys : Node → List Bytes
  | .leaf cells => cells.map Prod.fst
  | .interior cells _ => cells.map Prod.snd

/-- The top page of a subtree. -/
def Tree.node : (d : Nat) → Tree d → Node
  | 0, t => .leaf (Leaf.page t).cells
  | d + 1, t => .interior ((Interior.page t).cells.map fun c => (Tree.pgno d c.1, c.2))
      (Tree.pgno d (Interior.right t))

/-- All pages of a subtree, with their numbers. -/
def Tree.pages : (d : Nat) → Tree d → List (Nat × Node)
  | 0, t => [(Tree.pgno 0 t, Tree.node 0 t)]
  | d + 1, t => (Tree.pgno (d + 1) t, Tree.node (d + 1) t) ::
      (Interior.children t).flatMap (Tree.pages d)

/-- `tdb_pager_get` on the pages of a tree. -/
def Root.fetch (t : Root) (g : Nat) : Option Node :=
  (Keyed.find Prod.fst (Tree.pages t.depth t.tree) g).map Prod.snd

/-! ## The cursor -/

/-- `TDB_MAXDEPTH`. -/
def maxDepth : Nat := 40

/-- `tdb_cursor`, without the buffer for values; `leaf` is the number of the page that is pinned. -/
structure Cursor where
  page : Nat → Nat
  cidx : Nat → Nat
  depth : Nat
  leaf : Option Nat
  eof : Bool

/-- `tdb_cursor_open`. -/
def Cursor.opened : Cursor := ⟨fun _ => 0, fun _ => 0, 0, none, true⟩

def Cursor.setPage (c : Cursor) (level pgno : Nat) : Cursor :=
  { c with page := Function.update c.page level pgno }

def Cursor.setIdx (c : Cursor) (level i : Nat) : Cursor :=
  { c with cidx := Function.update c.cidx level i }

section Ops

variable (P : Nat → Option Node)

/-- `descend_leftmost`, with the number of levels that the arrays still have. There is no result if a
page is missing, and none behind the last level. -/
def descendLeftmost : Nat → Cursor → Nat → Nat → Option Cursor
  | 0, _, _, _ => none
  | levels + 1, c, pgno, level =>
    let c := c.setPage level pgno
    match P pgno with
    | none => none
    | some (.leaf _) => some { c.setIdx level 0 with depth := level, leaf := some pgno, eof := false }
    | some (.interior cells right) =>
      descendLeftmost levels (c.setIdx level 0) ((Node.interior cells right).child 0) (level + 1)

/-- The loop of `next_leaf`: the levels above are looked at from below, until one has another child. -/
def nextLeafFrom (c : Cursor) : Nat → Option Cursor
  | 0 => some { c with eof := true }
  | level + 1 =>
    match P (c.page level) with
    | none => none
    | some pg =>
      let nextci := c.cidx level + 1
      if nextci ≤ pg.ncell then
        descendLeftmost P (maxDepth - (level + 1)) (c.setIdx level nextci) (pg.child nextci) (level + 1)
      else nextLeafFrom c level

/-- `next_leaf`. -/
def nextLeaf (c : Cursor) : Option Cursor := nextLeafFrom P { c with leaf := none } c.depth

/-- The leaf that is pinned. -/
def Cursor.leafPage (c : Cursor) : Option Node := c.leaf.bind P

/-- `while (!c->eof && pg_ncell(c->leaf) == 0) next_leaf(c)`, for at most so many rounds. -/
def skipEmpty : Nat → Cursor → Option Cursor
  | 0, _ => none
  | fuel + 1, c =>
    if c.eof then some c
    else
      match c.leafPage P with
      | none => none
      | some pg => if pg.ncell = 0 then (nextLeaf P c).bind (skipEmpty fuel) else some c

/-- `tdb_cursor_first`. -/
def cursorFirst (fuel root : Nat) (c : Cursor) : Option Cursor := do
  let c ← descendLeftmost P maxDepth { c with leaf := none } root 0
  let c ← skipEmpty P fuel c
  if c.eof then some c
  else
    let pg ← c.leafPage P
    if pg.ncell ≤ c.cidx c.depth then some { c with eof := true } else some c

/-- `tdb_cursor_next`. -/
def cursorNext (fuel : Nat) (c : Cursor) : Option Cursor :=
  if c.eof ∨ c.leaf = none then some c
  else do
    let c := c.setIdx c.depth (c.cidx c.depth + 1)
    let pg ← c.leafPage P
    if c.cidx c.depth < pg.ncell then some c
    else
      let c ← nextLeaf P c
      skipEmpty P fuel c

variable (cmp : Bytes → Bytes → Ordering)

/-- The loop of `tdb_cursor_seek`, with whether the key was found in the leaf. -/
def seekDown (key : Bytes) : Nat → Cursor → Nat → Nat → Option (Cursor × Bool)
  | 0, _, _, _ => none
  | levels + 1, c, pgno, level =>
    let c := c.setPage level pgno
    match P pgno with
    | none => none
    | some (.leaf cells) =>
      let keys := (Node.leaf cells).keys
      some ({ c.setIdx level (pgFind cmp keys key) with
        depth := level, leaf := some pgno, eof := false }, pgExact cmp keys key)
    | some (.interior cells right) =>
      let idx := pgFind cmp (Node.interior cells right).keys key
      seekDown key levels (c.setIdx level idx) ((Node.interior cells right).child idx) (level + 1)

/-- `tdb_cursor_seek`, with `*cmp`: 0 on the key itself, 1 otherwise. -/
def cursorSeek (fuel root : Nat) (c : Cursor) (key : Bytes) : Option (Cursor × Nat) := do
  let (c, exact) ← seekDown P cmp key maxDepth { c with leaf := none } root 0
  let pg ← c.leafPage P
  if pg.ncell ≤ c.cidx c.depth then
    let c ← nextLeaf P c
    let c ← skipEmpty P fuel c
    some (c, 1)
  else some (c, if exact then 0 else 1)

/-- `tdb_cursor_key` with `tdb_cursor_data`: the cell the cursor stands on. -/
def Cursor.cell (c : Cursor) : Option LeafCell :=
  if c.eof then none
  else
    match c.leafPage P with
    | some (.leaf cells) => cells[c.cidx c.depth]?
    | _ => none

end Ops

/-! ## Leaves -/

/-- The leaves of a subtree from left to right. -/
def Tree.leaves : (d : Nat) → Tree d → List Leaf
  | 0, t => [t]
  | d + 1, t => (Interior.children t).flatMap (Tree.leaves d)

def Root.leaves (t : Root) : List Leaf := Tree.leaves t.depth t.tree

/-- The number of the root page. -/
def Root.pgno (t : Root) : Nat := Tree.pgno t.depth t.tree

/-- The search-tree invariant. -/
def Root.Sorted (cmp : Bytes → Bytes → Ordering) (t : Root) : Prop := Tree.Sorted cmp t.depth t.tree

/-- The cells of some leaves. -/
def cellsOf (ls : List Leaf) : List LeafCell := ls.flatMap fun l => l.page.cells

@[simp] theorem cellsOf_nil : cellsOf [] = [] := rfl

@[simp] theorem cellsOf_cons (l : Leaf) (ls : List Leaf) :
    cellsOf (l :: ls) = l.page.cells ++ cellsOf ls := rfl

@[simp] theorem cellsOf_append (ls ls' : List Leaf) : cellsOf (ls ++ ls') = cellsOf ls ++ cellsOf ls' :=
  flatMap_append

theorem cellsOf_flatMap {α : Type} (f : α → List Leaf) (xs : List α) :
    cellsOf (xs.flatMap f) = xs.flatMap fun x => cellsOf (f x) := by
  rw [cellsOf, flatMap_assoc]
  rfl

theorem Tree.cellsOf_leaves (d : Nat) : ∀ t : Tree d, cellsOf (Tree.leaves d t) = Tree.entries d t := by
  induction d with
  | zero => intro t; exact append_nil _
  | succ d ih =>
    intro t
    rw [Tree.leaves, Tree.entries, cellsOf_flatMap]
    simp only [ih]

theorem Root.cellsOf_leaves (t : Root) : cellsOf t.leaves = t.entries := Tree.cellsOf_leaves t.depth t.tree

/-! ## Stored trees -/

/-- The pages of the subtree are found under their numbers. -/
def Tree.InPages (P : Nat → Option Node) : (d : Nat) → Tree d → Prop
  | 0, t => P (Tree.pgno 0 t) = some (Tree.node 0 t)
  | d + 1, t => P (Tree.pgno (d + 1) t) = some (Tree.node (d + 1) t) ∧
      ∀ c ∈ Interior.children t, Tree.InPages P d c

/-- Every interior page has a separator. -/
def Tree.Branching : (d : Nat) → Tree d → Prop
  | 0, _ => True
  | d + 1, t => (Interior.page t).cells ≠ [] ∧ ∀ c ∈ Interior.children t, Tree.Branching d c

/-- The pages of the tree are different pages of one file, and interior pages have separators. -/
structure Root.Stored (t : Root) : Prop where
  distinct : ((Tree.pages t.depth t.tree).map Prod.fst).Nodup
  numbers : ∀ p ∈ Tree.pages t.depth t.tree, p.1 < 2 ^ 32
  branching : Tree.Branching t.depth t.tree

section Stored

variable {P : Nat → Option Node}

theorem Tree.InPages.top {t : Tree d} (h : Tree.InPages P d t) :
    P (Tree.pgno d t) = some (Tree.node d t) := by
  cases d with
  | zero => exact h
  | succ d => exact h.1

theorem inPages_of_pages (d : Nat) : ∀ t : Tree d, (∀ p ∈ Tree.pages d t, P p.1 = some p.2) →
    Tree.InPages P d t := by
  induction d with
  | zero => intro t h; exact h _ (mem_singleton_self _)
  | succ d ih =>
    intro t h
    refine ⟨h _ mem_cons_self, fun c hc => ih c fun p hp => h p ?_⟩
    exact mem_cons_of_mem _ (mem_flatMap.mpr ⟨c, hc, hp⟩)

theorem Root.Stored.inPages {t : Root} (h : t.Stored) : Tree.InPages t.fetch t.depth t.tree := by
  refine inPages_of_pages t.depth t.tree fun p hp => ?_
  rw [Root.fetch, Keyed.find_of_mem h.distinct hp]
  rfl

/-- The leaves are among the pages, in order. -/
theorem leaves_sublist (d : Nat) : ∀ t : Tree d,
    ((Tree.leaves d t).map Leaf.pgno).Sublist ((Tree.pages d t).map Prod.fst) := by
  induction d with
  | zero => intro t; exact List.Sublist.refl _
  | succ d ih =>
    intro t
    rw [Tree.leaves, Tree.pages, map_cons, map_flatMap, map_flatMap]
    refine List.Sublist.cons _ ?_
    induction Interior.children t with
    | nil => exact List.Sublist.refl _
    | cons c cs ihc =>
      rw [flatMap_cons, flatMap_cons]
      exact (ih c).append ihc

/-- Each level doubles the number of leaves. -/
theorem two_pow_le_leaves (d : Nat) : ∀ t : Tree d, Tree.Branching d t →
    2 ^ d ≤ (Tree.leaves d t).length := by
  induction d with
  | zero => intro t _; exact le_rfl
  | succ d ih =>
    intro t h
    obtain ⟨c, cs, hcells⟩ := exists_cons_of_ne_nil h.1
    have hfirst : c.1 ∈ Interior.children t := by
      simp [Interior.children, hcells]
    have hlast : Interior.right t ∈ Interior.children t := by
      simp [Interior.children]
    have hc := ih c.1 (h.2 _ hfirst)
    have hr := ih _ (h.2 _ hlast)
    have hlen : (Tree.leaves (d + 1) t).length = (Tree.leaves d c.1).length +
        ((cs.map Prod.fst).flatMap (Tree.leaves d)).length + (Tree.leaves d (Interior.right t)).length := by
      simp [Tree.leaves, Interior.children, hcells, Nat.add_assoc]
    rw [hlen, pow_succ]
    omega

/-- Numbers that are different and small are not many. -/
theorem length_le_of_nodup_lt {l : List Nat} {n : Nat} (hnd : l.Nodup) (hlt : ∀ x ∈ l, x < n) :
    l.length ≤ n := by
  rw [← toFinset_card_of_nodup hnd, ← Finset.card_range n]
  refine Finset.card_le_card fun x hx => ?_
  rw [Finset.mem_range]
  exact hlt x (mem_toFinset.mp hx)

/-- The arrays of a cursor have all levels of the tree. -/
theorem Root.Stored.depth_lt {t : Root} (h : t.Stored) : t.depth < maxDepth := by
  have hsub := leaves_sublist t.depth t.tree
  have hlt : ∀ g ∈ (Tree.leaves t.depth t.tree).map Leaf.pgno, g < 2 ^ 32 := by
    intro g hg
    obtain ⟨p, hp, rfl⟩ := mem_map.mp (hsub.subset hg)
    exact h.numbers p hp
  have hlen := length_le_of_nodup_lt (h.distinct.sublist hsub) hlt
  rw [length_map] at hlen
  have hpow : 2 ^ t.depth ≤ 2 ^ 32 := (two_pow_le_leaves _ _ h.branching).trans hlen
  have hle : t.depth ≤ 32 := (Nat.pow_le_pow_iff_right (by decide)).mp hpow
  exact lt_of_le_of_lt hle (by decide)

end Stored

/-! ## The place of a cursor -/

/-- From level `level` on the cursor stands in the subtree, on leaf `l` with `bs` in front of it and
`as` behind it. -/
def Path (c : Cursor) : (d : Nat) → Tree d → Nat → List Leaf → Leaf → List Leaf → Prop
  | 0, t, level, bs, l, as => c.page level = Tree.pgno 0 t ∧ c.depth = level ∧ bs = [] ∧ l = t ∧ as = []
  | d + 1, t, level, bs, l, as => c.page level = Tree.pgno (d + 1) t ∧
      ∃ (xs : List (Tree d)) (x : Tree d) (ys : List (Tree d)) (bs' as' : List Leaf),
        Interior.children t = xs ++ x :: ys ∧ xs.length = c.cidx level ∧
        Path c d x (level + 1) bs' l as' ∧ bs = xs.flatMap (Tree.leaves d) ++ bs' ∧
        as = as' ++ ys.flatMap (Tree.leaves d)

/-- The cursor has the same pages and indexes above a level. -/
def SameAbove (level : Nat) (c c' : Cursor) : Prop :=
  ∀ j < level, c'.page j = c.page j ∧ c'.cidx j = c.cidx j

section Place

variable {P : Nat → Option Node} {c c' : Cursor}

theorem SameAbove.trans {level : Nat} {c'' : Cursor} (h : SameAbove level c c')
    (h' : SameAbove level c' c'') : SameAbove level c c'' :=
  fun j hj => ⟨(h' j hj).1.trans (h j hj).1, (h' j hj).2.trans (h j hj).2⟩

theorem SameAbove.mono {level level' : Nat} (h : SameAbove level c c') (hle : level' ≤ level) :
    SameAbove level' c c' :=
  fun j hj => h j (lt_of_lt_of_le hj hle)

theorem sameAbove_setPage (c : Cursor) (level g : Nat) : SameAbove level c (c.setPage level g) :=
  fun j hj => ⟨by simp [Cursor.setPage, Function.update_of_ne (Nat.ne_of_lt hj)], rfl⟩

theorem sameAbove_setIdx (c : Cursor) (level i : Nat) : SameAbove level c (c.setIdx level i) :=
  fun j hj => ⟨rfl, by simp [Cursor.setIdx, Function.update_of_ne (Nat.ne_of_lt hj)]⟩

/-- A page and an index are set on one level. -/
theorem setPage_setIdx (c : Cursor) (level g i : Nat) :
    ((c.setPage level g).setIdx level i).page level = g ∧ ((c.setPage level g).setIdx level i).cidx level = i ∧
      SameAbove level c ((c.setPage level g).setIdx level i) :=
  ⟨by simp [Cursor.setPage, Cursor.setIdx], by simp [Cursor.setIdx],
    (sameAbove_setPage c level g).trans (sameAbove_setIdx _ level i)⟩

/-- From a page into one of its children. -/
theorem Path.below {t : Tree (d + 1)} {xs ys : List (Tree d)} {x : Tree d} {level : Nat} {bs as : List Leaf}
    {l : Leaf} (hpath : Path c' d x (level + 1) bs l as) (hsame : SameAbove (level + 1) c c')
    (hchildren : Interior.children t = xs ++ x :: ys) (hpage : c.page level = Tree.pgno (d + 1) t)
    (hidx : c.cidx level = xs.length) :
    Path c' (d + 1) t level (xs.flatMap (Tree.leaves d) ++ bs) l (as ++ ys.flatMap (Tree.leaves d)) := by
  obtain ⟨hpage', hidx'⟩ := hsame level (by omega)
  exact ⟨hpage'.trans hpage, xs, x, ys, bs, as, hchildren, (hidx'.trans hidx).symm, hpath, rfl, rfl⟩

theorem Path.leaves (d : Nat) : ∀ {t : Tree d} {level : Nat} {bs as : List Leaf} {l : Leaf},
    Path c d t level bs l as → Tree.leaves d t = bs ++ l :: as := by
  induction d with
  | zero =>
    rintro t level bs as l ⟨-, -, rfl, rfl, rfl⟩
    rfl
  | succ d ih =>
    rintro t level bs as l ⟨-, xs, x, ys, bs', as', hchildren, -, hpath, rfl, rfl⟩
    rw [Tree.leaves, hchildren]
    simp [ih hpath]

theorem Path.depth (d : Nat) : ∀ {t : Tree d} {level : Nat} {bs as : List Leaf} {l : Leaf},
    Path c d t level bs l as → c.depth = level + d := by
  induction d with
  | zero =>
    rintro t level bs as l ⟨-, hdepth, -⟩
    exact hdepth
  | succ d ih =>
    rintro t level bs as l ⟨-, xs, x, ys, bs', as', -, -, hpath, -, -⟩
    rw [ih hpath]
    omega

/-- The place depends on the arrays only, and on them from its level on. -/
theorem Path.congr (d : Nat) : ∀ {t : Tree d} {level : Nat} {bs as : List Leaf} {l : Leaf},
    Path c d t level bs l as → c'.depth = c.depth →
    (∀ j, level ≤ j → c'.page j = c.page j) → (∀ j, level ≤ j → j < level + d → c'.cidx j = c.cidx j) →
    Path c' d t level bs l as := by
  induction d with
  | zero =>
    rintro t level bs as l ⟨hpage, hdepth, hrest⟩ hd hp -
    exact ⟨(hp level le_rfl).trans hpage, hd.trans hdepth, hrest⟩
  | succ d ih =>
    rintro t level bs as l ⟨hpage, xs, x, ys, bs', as', hchildren, hlen, hpath, hbs, has⟩ hd hp hi
    refine ⟨(hp level le_rfl).trans hpage, xs, x, ys, bs', as', hchildren,
      hlen.trans (hi level le_rfl (by omega)).symm, ih hpath hd (fun j hj => hp j (by omega))
        (fun j hj hj' => hi j (by omega) (by omega)), hbs, has⟩

theorem child_node {t : Tree (d + 1)} {xs ys : List (Tree d)} {x : Tree d}
    (h : Interior.children t = xs ++ x :: ys) :
    (Tree.node (d + 1) t).child xs.length = Tree.pgno d x ∧
      (Tree.node (d + 1) t).ncell = xs.length + ys.length := by
  have hlen : (Interior.page t).cells.length = xs.length + ys.length := by
    have := congrArg List.length h
    simp only [Interior.children, length_append, length_map, length_cons,
      length_nil] at this
    omega
  refine ⟨?_, by simp [Tree.node, Node.ncell, hlen]⟩
  have hget : (Interior.children t)[xs.length]? = some x := by
    rw [h]
    simp
  simp only [Tree.node, Node.child, getElem?_map]
  change ((Interior.page t).cells.map Prod.fst ++ [Interior.right t])[xs.length]? = some x at hget
  by_cases hlt : xs.length < (Interior.page t).cells.length
  · rw [getElem?_append_left (by simpa using hlt), getElem?_map,
      getElem?_eq_getElem hlt] at hget
    rw [getElem?_eq_getElem hlt]
    simp only [Option.map_some, Option.some.injEq] at hget ⊢
    rw [hget]
  · have hnil : ys = [] := by
      rw [← length_eq_zero_iff]
      omega
    have heq : xs.length = (Interior.page t).cells.length := by
      rw [hlen, hnil, length_nil, Nat.add_zero]
    rw [getElem?_append_right (by simp [heq]), length_map, heq, Nat.sub_self] at hget
    rw [heq, getElem?_eq_none le_rfl]
    simp only [getElem?_cons_zero, Option.some.injEq] at hget
    rw [Option.map_none, hget]

/-- The cursor is on a leaf, on its cell number `i`. -/
structure OnLeaf (c : Cursor) (l : Leaf) (i : Nat) : Prop where
  leaf : c.leaf = some l.pgno
  eof : c.eof = false
  idx : c.cidx c.depth = i

/-- **Down to the first leaf.** -/
theorem descendLeftmost_path (d : Nat) : ∀ {t : Tree d} {level levels : Nat} (c : Cursor),
    Tree.InPages P d t → d < levels →
    ∃ c' l as, descendLeftmost P levels c (Tree.pgno d t) level = some c' ∧
      Path c' d t level [] l as ∧ OnLeaf c' l 0 ∧ SameAbove level c c' := by
  induction d with
  | zero =>
    intro t level levels c hP hlt
    obtain ⟨levels, rfl⟩ := Nat.exists_eq_succ_of_ne_zero (by omega : levels ≠ 0)
    rw [descendLeftmost, hP.top]
    obtain ⟨hpage, hidx, hsame⟩ := setPage_setIdx c level (Tree.pgno 0 t) 0
    exact ⟨_, t, [], rfl, ⟨hpage, rfl, rfl, rfl, rfl⟩, ⟨rfl, rfl, hidx⟩, hsame⟩
  | succ d ih =>
    intro t level levels c hP hlt
    obtain ⟨levels, rfl⟩ := Nat.exists_eq_succ_of_ne_zero (by omega : levels ≠ 0)
    rw [descendLeftmost, hP.top]
    -- the first child, which is the right one if there is no cell
    obtain ⟨x, ys, hchildren⟩ : ∃ x ys, Interior.children t = [] ++ x :: ys := by
      obtain ⟨x, ys, h⟩ := exists_cons_of_ne_nil
        (show Interior.children t ≠ [] by simp [Interior.children])
      exact ⟨x, ys, h⟩
    have hx : Tree.InPages P d x := hP.2 x (by simp [hchildren])
    obtain ⟨hpage, hidx, hsame1⟩ := setPage_setIdx c level (Tree.pgno (d + 1) t) 0
    obtain ⟨c', l, as, hrun, hpath, hon, hsame⟩ :=
      @ih x (level + 1) levels ((c.setPage level (Tree.pgno (d + 1) t)).setIdx level 0) hx (by omega)
    have hchild : (Tree.node (d + 1) t).child 0 = Tree.pgno d x := (child_node hchildren).1
    refine ⟨c', l, as ++ ys.flatMap (Tree.leaves d), ?_, hpath.below hsame hchildren hpage hidx, hon,
      hsame1.trans (hsame.mono (by omega))⟩
    rw [← hrun, ← hchild]
    rfl

/-- **Up and down to the next leaf.** If there is one in the subtree, the cursor gets there; if not, the
loop goes on above the subtree. -/
theorem nextLeafFrom_path (d : Nat) : ∀ {t : Tree d} {level : Nat} {bs as : List Leaf} {l : Leaf},
    Tree.InPages P d t → Path c d t level bs l as → level + d < maxDepth →
    (as = [] → nextLeafFrom P c (level + d) = nextLeafFrom P c level) ∧
    ∀ l' as', as = l' :: as' → ∃ c', nextLeafFrom P c (level + d) = some c' ∧
      Path c' d t level (bs ++ [l]) l' as' ∧ OnLeaf c' l' 0 ∧ SameAbove level c c' := by
  induction d with
  | zero =>
    rintro t level bs as l - ⟨-, -, -, -, rfl⟩ -
    exact ⟨fun _ => rfl, fun l' as' h => by cases h⟩
  | succ d ih =>
    rintro t level bs as l hP ⟨hpage, xs, x, ys, bs', as', hchildren, hlen, hpath, rfl, rfl⟩ hdepth
    have hx : Tree.InPages P d x := hP.2 x (by simp [hchildren])
    obtain ⟨hup, hin⟩ := ih hx hpath (by omega)
    rw [show level + (d + 1) = level + 1 + d by omega]
    cases as' with
    | cons l'' as'' =>
      -- the child has another leaf
      refine ⟨fun h => by simp at h, fun l' rest h => ?_⟩
      obtain ⟨rfl, rfl⟩ : l'' = l' ∧ as'' ++ ys.flatMap (Tree.leaves d) = rest := by simpa using h
      obtain ⟨c', hrun, hpath', hon, hsame⟩ := hin l'' as'' rfl
      rw [append_assoc]
      exact ⟨c', hrun, hpath'.below hsame hchildren hpage hlen.symm, hon, hsame.mono (by omega)⟩
    | nil =>
      rw [hup rfl, nextLeafFrom, hpage, hP.top]
      simp only [← hlen, (child_node hchildren).2]
      cases ys with
      | nil =>
        refine ⟨fun _ => ?_, fun l' rest h => by simp at h⟩
        rw [if_neg (by simp)]
      | cons y ys =>
        have hchildren' : Interior.children t = (xs ++ [x]) ++ y :: ys := by
          rw [hchildren]
          simp
        have hy : Tree.InPages P d y := hP.2 y (by simp [hchildren])
        obtain ⟨c', l', as, hrun, hpath', hon, hsame⟩ := @descendLeftmost_path P d y (level + 1)
          (maxDepth - (level + 1)) (c.setIdx level (xs.length + 1)) hy (by omega)
        have hchild : (Tree.node (d + 1) t).child (xs.length + 1) = Tree.pgno d y := by
          have := (child_node hchildren').1
          simpa using this
        refine ⟨fun h => ?_, fun l'' rest h => ?_⟩
        · have := Path.leaves d hpath'
          simp [this] at h
        · rw [if_pos (by simp only [length_cons]; omega), hchild, hrun]
          have hleaves := Path.leaves d hpath'
          simp only [nil_append, flatMap_cons, hleaves, cons_append, List.cons.injEq] at h
          obtain ⟨rfl, rfl⟩ := h
          have hbelow := hpath'.below hsame hchildren' hpage (by simp [Cursor.setIdx])
          refine ⟨c', rfl, ?_, hon, (sameAbove_setIdx c level _).trans (hsame.mono (by omega))⟩
          simpa [Path.leaves d hpath] using hbelow

end Place

/-! ## Forward -/

/-- The cursor stands on cell `i` of leaf `l` of the tree. -/
structure At (t : Root) (c : Cursor) (bs : List Leaf) (l : Leaf) (i : Nat) (as : List Leaf) : Prop where
  path : Path c t.depth t.tree 0 bs l as
  on : OnLeaf c l i

/-- The cells the cursor has still to yield: those from its own on, or none at its end. -/
inductive Reads (t : Root) (c : Cursor) : List LeafCell → Prop where
  | eof (heof : c.eof = true) : Reads t c []
  | cell (bs : List Leaf) (l : Leaf) (i : Nat) (as : List Leaf) (hat : At t c bs l i as)
      (hi : i < l.page.cells.length) : Reads t c (l.page.cells.drop i ++ cellsOf as)

section Forward

variable {t : Root} {c : Cursor} {bs as : List Leaf} {l : Leaf} {i : Nat}

/-- A cursor that is not at its end stands on a cell. -/
theorem Reads.exists_at (h : Reads t c es) (heof : c.eof = false) :
    ∃ bs l i as, At t c bs l i as ∧ i < l.page.cells.length := by
  cases h with
  | eof htrue => rw [htrue] at heof; cases heof
  | cell bs l i as hat hi => exact ⟨bs, l, i, as, hat, hi⟩

section

variable (h : t.Stored)

include h

theorem Root.Stored.leafPage (hat : At t c bs l i as) :
    c.leafPage t.fetch = some (.leaf l.page.cells) := by
  have hmem : ∀ (d : Nat) (u : Tree d), Tree.InPages t.fetch d u → l ∈ Tree.leaves d u →
      t.fetch l.pgno = some (.leaf l.page.cells) := by
    intro d
    induction d with
    | zero =>
      intro u hu hl
      obtain rfl : l = u := mem_singleton.mp hl
      exact hu
    | succ d ih =>
      intro u hu hl
      obtain ⟨x, hx, hl⟩ := mem_flatMap.mp hl
      exact ih x (hu.2 x hx) hl
  rw [Cursor.leafPage, hat.on.leaf]
  exact hmem t.depth t.tree h.inPages (by rw [hat.path.leaves]; simp)

/-- `next_leaf` goes to the next leaf, or to the end. -/
theorem Root.Stored.nextLeaf (hat : At t c bs l i as) :
    (as = [] → ∃ c', nextLeaf t.fetch c = some c' ∧ c'.eof = true) ∧
    ∀ l' as', as = l' :: as' → ∃ c', nextLeaf t.fetch c = some c' ∧ At t c' (bs ++ [l]) l' 0 as' := by
  have hpath : Path { c with leaf := none } t.depth t.tree 0 bs l as :=
    hat.path.congr _ rfl (fun _ _ => rfl) (fun _ _ _ => rfl)
  have hdepth : c.depth = 0 + t.depth := hat.path.depth
  obtain ⟨hend, hin⟩ := nextLeafFrom_path t.depth h.inPages hpath (by simpa using h.depth_lt)
  rw [← hdepth] at hend hin
  rw [BTree.nextLeaf]
  refine ⟨fun has => ⟨_, hend has, rfl⟩, fun l' as' has => ?_⟩
  obtain ⟨c', hrun, hpath', hon, -⟩ := hin l' as' has
  exact ⟨c', hrun, hpath', hon⟩

/-- Empty leaves are skipped. -/
theorem Root.Stored.skipEmpty : ∀ (as : List Leaf) {c : Cursor} {bs : List Leaf}
    {l : Leaf} (fuel : Nat), At t c bs l 0 as → as.length + 1 < fuel →
    ∃ c', skipEmpty t.fetch fuel c = some c' ∧ Reads t c' (cellsOf (l :: as)) := by
  intro as
  induction as with
  | nil =>
    intro c bs l fuel hat hfuel
    obtain ⟨fuel, rfl⟩ := Nat.exists_eq_add_of_lt hfuel
    rw [show [].length + 1 + fuel + 1 = fuel + 1 + 1 by simp; omega, BTree.skipEmpty, hat.on.eof,
      if_neg (by simp), h.leafPage hat]
    by_cases hempty : l.page.cells = []
    · obtain ⟨c', hrun, heof⟩ := (h.nextLeaf hat).1 rfl
      refine ⟨c', ?_, ?_⟩
      · refine (if_pos (by rw [hempty]; rfl)).trans ?_
        rw [hrun, Option.bind_some, BTree.skipEmpty, if_pos heof]
      · rw [cellsOf_cons, hempty]
        exact .eof heof
    · have hpos : 0 < l.page.cells.length := length_pos_iff.mpr hempty
      refine ⟨c, ?_, .cell bs l 0 [] hat hpos⟩
      exact if_neg (Nat.ne_of_gt hpos)
  | cons l' as ih =>
    intro c bs l fuel hat hfuel
    obtain ⟨fuel, rfl⟩ := Nat.exists_eq_succ_of_ne_zero (by omega : fuel ≠ 0)
    rw [BTree.skipEmpty, hat.on.eof, if_neg (by simp), h.leafPage hat]
    by_cases hempty : l.page.cells = []
    · obtain ⟨c', hrun, hat'⟩ := (h.nextLeaf hat).2 l' as rfl
      obtain ⟨c'', hskip, hreads⟩ := ih fuel hat' (by simpa using hfuel)
      refine ⟨c'', ?_, ?_⟩
      · refine (if_pos (by rw [hempty]; rfl)).trans ?_
        rw [hrun, Option.bind_some, hskip]
      · rw [cellsOf_cons, hempty]
        exact hreads
    · have hpos : 0 < l.page.cells.length := length_pos_iff.mpr hempty
      refine ⟨c, ?_, .cell bs l 0 (l' :: as) hat hpos⟩
      exact if_neg (Nat.ne_of_gt hpos)

/-- From a leaf that is used up the cursor goes to the first cell behind it. -/
theorem Root.Stored.nextCell (hat : At t c bs l i as) (hfuel : t.leaves.length < fuel) :
    ∃ c', (BTree.nextLeaf t.fetch c).bind (BTree.skipEmpty t.fetch fuel) = some c' ∧
      Reads t c' (cellsOf as) := by
  have hleaves : t.leaves = bs ++ l :: as := hat.path.leaves
  cases as with
  | nil =>
    obtain ⟨c', hrun, heof⟩ := (h.nextLeaf hat).1 rfl
    refine ⟨c', ?_, .eof heof⟩
    obtain ⟨fuel, rfl⟩ := Nat.exists_eq_succ_of_ne_zero (by omega : fuel ≠ 0)
    rw [hrun, Option.bind_some, BTree.skipEmpty, if_pos heof]
  | cons l' as =>
    obtain ⟨c', hrun, hat'⟩ := (h.nextLeaf hat).2 l' as rfl
    rw [hrun, Option.bind_some]
    refine h.skipEmpty as fuel hat' ?_
    simp only [hleaves, length_append, length_cons] at hfuel
    omega

/-- `tdb_cursor_next` yields one cell less. -/
theorem Root.Stored.next {e : LeafCell} (hreads : Reads t c (e :: es))
    (hfuel : t.leaves.length < fuel) :
    c.eof = false ∧ c.cell t.fetch = some e ∧
      ∃ c', cursorNext t.fetch fuel c = some c' ∧ Reads t c' es := by
  generalize hes : e :: es = cells at hreads
  cases hreads with
  | eof heof => cases hes
  | cell bs l i as hat hi =>
    rw [drop_eq_getElem_cons hi, cons_append, List.cons.injEq] at hes
    obtain ⟨rfl, rfl⟩ := hes
    have hleaf := h.leafPage hat
    refine ⟨hat.on.eof, ?_, ?_⟩
    · rw [Cursor.cell, hat.on.eof, if_neg (by simp), hleaf, hat.on.idx]
      exact getElem?_eq_getElem hi
    -- the cursor on the next cell of the leaf
    have hat' : At t (c.setIdx c.depth (c.cidx c.depth + 1)) bs l (i + 1) as := by
      refine ⟨hat.path.congr _ rfl (fun _ _ => rfl) (fun j _ hj => ?_), hat.on.leaf, hat.on.eof, ?_⟩
      · have hdepth : c.depth = 0 + t.depth := hat.path.depth
        simp [Cursor.setIdx, Function.update_of_ne (show j ≠ c.depth by omega)]
      · simp [Cursor.setIdx, hat.on.idx]
    have hstart : ¬ (c.eof = true ∨ c.leaf = none) := by
      rw [hat.on.eof, hat.on.leaf]
      simp
    rw [cursorNext, if_neg hstart]
    simp only [h.leafPage hat', Option.bind_eq_bind, Option.bind_some]
    have hidx : (c.setIdx c.depth (c.cidx c.depth + 1)).cidx
        (c.setIdx c.depth (c.cidx c.depth + 1)).depth = i + 1 := hat'.on.idx
    rw [hidx]
    by_cases hlt : i + 1 < l.page.cells.length
    · exact ⟨_, if_pos hlt, .cell bs l (i + 1) as hat' hlt⟩
    · obtain ⟨c', hrun, hrest⟩ := h.nextCell hat' hfuel
      rw [drop_eq_nil_of_le (by omega)]
      exact ⟨c', (if_neg hlt).trans hrun, hrest⟩

theorem Root.Stored.enumerates (hreads : Reads t c es) (hfuel : t.leaves.length < fuel) :
    Enumerates (cursorNext t.fetch fuel) Cursor.eof (Cursor.cell t.fetch) c es := by
  refine enumerates_of_rest (R := Reads t) (fun c hr => ?_) (fun c e es hr => h.next hr hfuel) es hreads
  generalize hes : ([] : List LeafCell) = cells at hr
  cases hr with
  | eof heof =>
    refine ⟨heof, by rw [Cursor.cell, if_pos heof], ?_⟩
    rw [cursorNext, if_pos (.inl heof)]
  | cell bs l i as hat hi =>
    have hlen := congrArg List.length hes
    simp only [length_nil, length_append, length_drop] at hlen
    omega

theorem Root.Stored.first (c : Cursor) (hfuel : t.leaves.length < fuel) :
    ∃ c', cursorFirst t.fetch fuel t.pgno c = some c' ∧ Reads t c' t.entries := by
  obtain ⟨c', l, as, hrun, hpath, hon, -⟩ :=
    @descendLeftmost_path t.fetch t.depth t.tree 0 maxDepth { c with leaf := none } h.inPages h.depth_lt
  change descendLeftmost _ _ _ t.pgno 0 = _ at hrun
  have hleaves : t.leaves = l :: as := hpath.leaves
  obtain ⟨c'', hskip, hreads⟩ := h.skipEmpty as fuel ⟨hpath, hon⟩
    (by rw [hleaves, length_cons] at hfuel; exact hfuel)
  refine ⟨c'', ?_, ?_⟩
  · simp only [cursorFirst, hrun, hskip, Option.bind_eq_bind, Option.bind_some]
    cases heof : c''.eof with
    | true => rfl
    | false =>
      obtain ⟨bs, l, i, as, hat, hi⟩ := hreads.exists_at heof
      simp only [h.leafPage hat, Option.bind_some, hat.on.idx]
      rw [if_neg (by simp)]
      exact if_neg (Nat.not_le.mpr hi)
  · rw [← Root.cellsOf_leaves, hleaves]
    exact hreads

end

end Forward

/-! ## Seeking -/

section Seek

variable {cmp : Bytes → Bytes → Ordering} [Std.TransCmp cmp] {key : Bytes}

theorem cmp_swap (cmp : Bytes → Bytes → Ordering) [Std.OrientedCmp cmp] (a b : Bytes) :
    cmp a b = (cmp b a).swap := Std.OrientedCmp.eq_swap

/-- What is behind a separator that is not below the key is behind the key. -/
theorem lt_of_not_lt_of_lt {a b : Bytes} (h : cmp a key ≠ .lt) (hb : cmp a b = .lt) : cmp key b = .lt := by
  have hle : (cmp key a).isLE := by
    rw [cmp_swap cmp, Ordering.isLE_swap]
    cases hcmp : cmp a key with
    | lt => exact absurd hcmp h
    | eq => rfl
    | gt => rfl
  exact Std.TransCmp.lt_of_isLE_of_lt hle hb

theorem children_eq (t : Tree (d + 1)) :
    Interior.children t = (Interior.page t).cells.map Prod.fst ++ [Interior.right t] := rfl

theorem mem_chainEntries {cells : List (Tree d × Bytes)} {r y : Tree d} {e : LeafCell}
    (hy : y ∈ cells.map Prod.fst ++ [r]) (he : e ∈ Tree.entries d y) :
    e ∈ chainEntries (Tree.entries d) cells r := by
  rw [chainEntries, mem_append, mem_flatMap]
  rcases mem_append.mp hy with hy | hy
  · obtain ⟨c, hc, rfl⟩ := mem_map.mp hy
    exact .inl ⟨c, hc, he⟩
  · rw [mem_singleton.mp hy] at he
    exact .inr he

/-- The child that `pg_find` goes down to: what is in front of it is below the key, what is behind it
is above. -/
theorem sorted_descend {t : Tree (d + 1)} (h : Tree.Sorted cmp (d + 1) t) (key : Bytes) :
    ∃ xs x ys, Interior.children t = xs ++ x :: ys ∧ xs.length = pgFind cmp (Interior.keys t) key ∧
      (∀ y ∈ xs, ∀ e ∈ Tree.entries d y, cmp e.1 key = .lt) ∧
      ∀ y ∈ ys, ∀ e ∈ Tree.entries d y, cmp key e.1 = .lt := by
  obtain ⟨hkeys, -, hbounds⟩ := h
  have hpair : (Interior.page t).cells.Pairwise (fun a b => cmp a.2 b.2 = .lt) :=
    pairwise_map.mp hkeys
  obtain ⟨xs, ys, hcells, hlen, hlow, hhigh⟩ := pgFind_spec (f := Prod.snd) hpair key
  have hbelow : ∀ y ∈ xs.map Prod.fst, ∀ e ∈ Tree.entries d y, cmp e.1 key = .lt := by
    intro y hy e he
    obtain ⟨c, hc, rfl⟩ := mem_map.mp hy
    obtain ⟨us, vs, rfl⟩ := append_of_mem hc
    have hle := (hbounds us c (vs ++ ys) (by rw [hcells]; simp)).1 e he
    exact Std.TransCmp.lt_of_isLE_of_lt hle (hlow c hc)
  cases ys with
  | nil =>
    rw [append_nil] at hcells
    refine ⟨xs.map Prod.fst, Interior.right t, [], ?_, ?_, hbelow, fun y hy => by cases hy⟩
    · rw [children_eq, hcells]
    · rw [length_map]
      exact hlen
  | cons c ys =>
    refine ⟨xs.map Prod.fst, c.1, ys.map Prod.fst ++ [Interior.right t], ?_, ?_, hbelow, ?_⟩
    · rw [children_eq, hcells]
      simp
    · rw [length_map]
      exact hlen
    · intro y hy e he
      exact lt_of_not_lt_of_lt (hhigh c (by simp)) ((hbounds xs c ys hcells).2 e (mem_chainEntries hy he))

/-- **Down to the leaf of a key.** -/
theorem seekDown_path {P : Nat → Option Node} (d : Nat) : ∀ {t : Tree d} {level levels : Nat}
    (c : Cursor), Tree.InPages P d t → Tree.Sorted cmp d t → d < levels →
    ∃ c' bs l as, seekDown P cmp key levels c (Tree.pgno d t) level = some (c', pgExact cmp l.keys key) ∧
      Path c' d t level bs l as ∧ OnLeaf c' l (pgFind cmp l.keys key) ∧ SameAbove level c c' ∧
      l.keys.Pairwise (fun a b => cmp a b = .lt) ∧
      (∀ e ∈ cellsOf bs, cmp e.1 key = .lt) ∧ ∀ e ∈ cellsOf as, cmp key e.1 = .lt := by
  induction d with
  | zero =>
    intro t level levels c hP hsorted hlt
    obtain ⟨levels, rfl⟩ := Nat.exists_eq_succ_of_ne_zero (by omega : levels ≠ 0)
    rw [seekDown, hP.top]
    obtain ⟨hpage, hidx, hsame⟩ := setPage_setIdx c level (Tree.pgno 0 t) (pgFind cmp (Leaf.keys t) key)
    exact ⟨_, [], t, [], rfl, ⟨hpage, rfl, rfl, rfl, rfl⟩, ⟨rfl, rfl, hidx⟩, hsame, hsorted, by simp, by simp⟩
  | succ d ih =>
    intro t level levels c hP hsorted hlt
    obtain ⟨levels, rfl⟩ := Nat.exists_eq_succ_of_ne_zero (by omega : levels ≠ 0)
    rw [seekDown, hP.top]
    obtain ⟨xs, x, ys, hchildren, hlen, hbelow, habove⟩ := sorted_descend hsorted key
    have hmem : x ∈ Interior.children t := by simp [hchildren]
    obtain ⟨hpage, hidx, hsame1⟩ := setPage_setIdx c level (Tree.pgno (d + 1) t) xs.length
    obtain ⟨c', bs, l, as, hrun, hpath, hon, hsame, hkeys, hbs, has⟩ :=
      @ih x (level + 1) levels ((c.setPage level (Tree.pgno (d + 1) t)).setIdx level xs.length)
        (hP.2 x hmem) (hsorted.2.1 x hmem) (by omega)
    have hnode : pgFind cmp (Tree.node (d + 1) t).keys key = xs.length := by
      rw [hlen]
      simp [Tree.node, Node.keys, Interior.keys, Function.comp_def]
    refine ⟨c', xs.flatMap (Tree.leaves d) ++ bs, l, as ++ ys.flatMap (Tree.leaves d), ?_,
      hpath.below hsame hchildren hpage hidx, hon, hsame1.trans (hsame.mono (by omega)), hkeys, ?_, ?_⟩
    · rw [← (child_node hchildren).1, ← hnode] at hrun
      exact hrun
    · intro e he
      rw [cellsOf_append, cellsOf_flatMap, mem_append, mem_flatMap] at he
      rcases he with ⟨y, hy, he⟩ | he
      · exact hbelow y hy e (by rwa [Tree.cellsOf_leaves] at he)
      · exact hbs e he
    · intro e he
      rw [cellsOf_append, cellsOf_flatMap, mem_append, mem_flatMap] at he
      rcases he with he | ⟨y, hy, he⟩
      · exact has e he
      · exact habove y hy e (by rwa [Tree.cellsOf_leaves] at he)

/-- `pg_find` cuts the cells of a leaf where those begin that are not below the key. -/
theorem drop_pgFind {l : Leaf} (h : l.keys.Pairwise (fun a b => cmp a b = .lt)) (key : Bytes) :
    l.page.cells.drop (pgFind cmp l.keys key) = l.page.cells.filter (fun e => cmp e.1 key ≠ .lt) := by
  obtain ⟨xs, ys, hcells, hlen, hlow, hhigh⟩ := pgFind_spec (f := Prod.fst) (pairwise_map.mp h) key
  rw [Leaf.keys, ← hlen, hcells, drop_left, filter_append,
    filter_eq_nil_iff.mpr (fun e he => by simpa using hlow e he),
    filter_eq_self.mpr (fun e he => by simpa using hhigh e he), nil_append]

/-- The key is in the leaf exactly if `pg_find` says so. -/
theorem pgExact_iff {l : Leaf} (h : l.keys.Pairwise (fun a b => cmp a b = .lt)) (key : Bytes) :
    pgExact cmp l.keys key = true ↔ ∃ e ∈ l.page.cells, cmp e.1 key = .eq := by
  obtain ⟨xs, ys, hcells, hlen, hlow, hhigh⟩ := pgFind_spec (f := Prod.fst) (pairwise_map.mp h) key
  have hpair : (xs ++ ys).Pairwise (fun a b => cmp a.1 b.1 = .lt) := hcells ▸ pairwise_map.mp h
  have hat : l.keys[pgFind cmp l.keys key]? = ys.head?.map Prod.fst := by
    rw [Leaf.keys, ← hlen, hcells, getElem?_map, getElem?_append_right le_rfl, Nat.sub_self,
      head?_eq_getElem?]
  rw [pgExact, hat]
  cases ys with
  | nil =>
    simp only [head?_nil, Option.map_none, Bool.false_eq_true, false_iff, not_exists, not_and]
    intro e he heq
    rw [hcells, append_nil] at he
    rw [hlow e he] at heq
    cases heq
  | cons y ys =>
    simp only [head?_cons, Option.map_some, decide_eq_true_eq]
    refine ⟨fun heq => ⟨y, by simp [hcells], heq⟩, ?_⟩
    rintro ⟨e, he, heq⟩
    rw [hcells, mem_append, mem_cons] at he
    rcases he with he | rfl | he
    · rw [hlow e he] at heq
      cases heq
    · exact heq
    · -- the cells behind the first one are behind the key
      have hlt : cmp y.1 e.1 = .lt :=
        rel_of_pairwise_cons (pairwise_append.mp hpair).2.1 he
      have habove := lt_of_not_lt_of_lt (hhigh y (by simp)) hlt
      rw [cmp_swap cmp, heq] at habove
      cases habove

theorem Root.Stored.seek {t : Root} (h : t.Stored) (hsorted : t.Sorted cmp) (c : Cursor)
    (key : Bytes) (hfuel : t.leaves.length < fuel) :
    ∃ c' r, cursorSeek t.fetch cmp fuel t.pgno c key = some (c', r) ∧
      Reads t c' (t.entries.filter (fun e => cmp e.1 key ≠ .lt)) ∧
      (r = 0 ↔ Has cmp key { e | e ∈ t.entries }) := by
  obtain ⟨c', bs, l, as, hrun, hpath, hon, -, hkeys, hbs, has⟩ :=
    @seekDown_path cmp _ key t.fetch t.depth t.tree 0 maxDepth { c with leaf := none } h.inPages hsorted
      h.depth_lt
  have hat : At t c' bs l (pgFind cmp l.keys key) as := ⟨hpath, hon⟩
  change seekDown _ _ _ _ _ t.pgno 0 = _ at hrun
  have hleaves : t.leaves = bs ++ l :: as := hpath.leaves
  have hentries : t.entries = cellsOf bs ++ (l.page.cells ++ cellsOf as) := by
    rw [← Root.cellsOf_leaves, hleaves, cellsOf_append, cellsOf_cons]
  have hfilter : t.entries.filter (fun e => cmp e.1 key ≠ .lt)
      = l.page.cells.drop (pgFind cmp l.keys key) ++ cellsOf as := by
    have habove : ∀ e ∈ cellsOf as, cmp e.1 key ≠ .lt := by
      intro e he hlt
      have hgt := has e he
      rw [cmp_swap cmp, hlt] at hgt
      cases hgt
    have hfront : (cellsOf bs).filter (fun e => cmp e.1 key ≠ .lt) = [] :=
      filter_eq_nil_iff.mpr fun e he => by simpa using hbs e he
    have hback : (cellsOf as).filter (fun e => cmp e.1 key ≠ .lt) = cellsOf as :=
      filter_eq_self.mpr fun e he => by simpa using habove e he
    rw [hentries, filter_append, filter_append, drop_pgFind hkeys, hfront, hback,
      nil_append]
  -- the key can only be in the leaf
  have hhas : Has cmp key { e | e ∈ t.entries } ↔ pgExact cmp l.keys key = true := by
    rw [pgExact_iff hkeys]
    constructor
    · rintro ⟨e, he, heq⟩
      rw [Set.mem_ofPred_eq, hentries, mem_append, mem_append] at he
      rcases he with he | he | he
      · rw [hbs e he] at heq
        cases heq
      · exact ⟨e, he, heq⟩
      · have hgt := has e he
        rw [cmp_swap cmp, heq] at hgt
        cases hgt
    · rintro ⟨e, he, heq⟩
      exact ⟨e, by rw [Set.mem_ofPred_eq, hentries]; simp [he], heq⟩
  rw [hfilter, hhas]
  simp only [cursorSeek, hrun, Option.bind_eq_bind, Option.bind_some, h.leafPage hat, hat.on.idx]
  by_cases hlt : pgFind cmp l.keys key < l.page.cells.length
  · refine ⟨c', _, if_neg (Nat.not_le.mpr hlt), .cell bs l _ as hat hlt, ?_⟩
    cases pgExact cmp l.keys key <;> simp
  · obtain ⟨c'', hnext, hrest⟩ := h.nextCell hat hfuel
    refine ⟨c'', 1, (if_pos (Nat.not_lt.mp hlt)).trans ?_, ?_, ?_⟩
    · obtain ⟨c1, hleaf, hskip⟩ := Option.bind_eq_some_iff.mp hnext
      simp only [hleaf, hskip, Option.bind_some]
    · rw [drop_eq_nil_of_le (Nat.not_lt.mp hlt)]
      exact hrest
    · have hnil : l.keys[pgFind cmp l.keys key]? = none := by
        rw [getElem?_eq_none_iff, Leaf.keys, length_map]
        exact Nat.not_lt.mp hlt
      simp [pgExact, hnil]

/-- The entries of a sorted tree are increasing. -/
theorem Tree.Sorted.increasing (d : Nat) : ∀ {t : Tree d}, Tree.Sorted cmp d t →
    Increasing cmp (Tree.entries d t) := by
  induction d with
  | zero => intro t h; exact pairwise_map.mp h
  | succ d ih =>
    rintro t ⟨-, hchildren, hbounds⟩
    refine pairwise_flatMap.mpr ⟨fun c hc => ih (hchildren c hc), ?_⟩
    rw [children_eq]
    generalize (Interior.page t).cells = cells at hbounds
    induction cells with
    | nil => exact pairwise_singleton _ _
    | cons c cells ihc =>
      rw [map_cons, cons_append, pairwise_cons]
      refine ⟨fun y hy e he e' he' => ?_, ihc fun xs c' ys h => hbounds (c :: xs) c' ys (by rw [h]; rfl)⟩
      obtain ⟨hle, hlt⟩ := hbounds [] c cells rfl
      exact Std.TransCmp.lt_of_isLE_of_lt (hle e he) (hlt e' (mem_chainEntries hy he'))

/-- After a run at whose splits both halves fit the tree is sorted. -/
theorem sorted_runOps {ps pgno : Nat} (hps : 512 ≤ ps) {ops : List Op} {t : Root}
    (ht : t = runOps ps cmp ops (Root.create ps pgno)) (hfit : OpsFit ps cmp ops (Root.create ps pgno)) :
    t.Sorted cmp := by
  subst ht
  exact TreeOk.sorted _ (runOps_ok hps ops (ok_create hps pgno) rfl hfit).1

/-- **Forward cursors enumerate the map.** On a stored tree that is sorted, a cursor that seeks a key
yields the entries from the key on, in increasing order, and then the end; `*cmp` is 0 exactly if the
key is there. A cursor at the first entry yields all of them. -/
theorem cursor_enumerates {t : Root} (hstored : t.Stored) (hsorted : t.Sorted cmp)
    (c : Cursor) (fuel : Nat) (hfuel : t.leaves.length < fuel) :
    Increasing cmp t.entries ∧
    (∀ key, ∃ c' r, cursorSeek t.fetch cmp fuel t.pgno c key = some (c', r) ∧
      Enumerates (cursorNext t.fetch fuel) Cursor.eof (Cursor.cell t.fetch) c'
        (t.entries.filter (fun e => cmp e.1 key ≠ .lt)) ∧
      (r = 0 ↔ Has cmp key { e | e ∈ t.entries })) ∧
    ∃ c', cursorFirst t.fetch fuel t.pgno c = some c' ∧
      Enumerates (cursorNext t.fetch fuel) Cursor.eof (Cursor.cell t.fetch) c' t.entries := by
  refine ⟨Tree.Sorted.increasing t.depth hsorted, fun key => ?_, ?_⟩
  · obtain ⟨c', r, hrun, hreads, hr⟩ := hstored.seek hsorted c key hfuel
    exact ⟨c', r, hrun, hstored.enumerates hreads hfuel, hr⟩
  · obtain ⟨c', hrun, hreads⟩ := hstored.first c hfuel
    exact ⟨c', hrun, hstored.enumerates hreads hfuel⟩

end Seek

instance instDecidableBranching : (d : Nat) → (t : Tree d) → Decidable (Tree.Branching d t)
  | 0, _ => inferInstanceAs (Decidable True)
  | d + 1, t =>
    have := instDecidableBranching d
    inferInstanceAs (Decidable ((Interior.page t).cells ≠ [] ∧ ∀ c ∈ Interior.children t, _))

/-- Five rows on two leaves, of which those of the first are deleted again. -/
def firstLeafEmpty : List Op :=
  [1, 2, 3, 4, 5].map (fun r => .insert (rowidToKey r) (zeros 1010)) ++
    [.remove (rowidToKey 1), .remove (rowidToKey 2)]

/-- The cursor passes the empty leaf: from rowid 2 on it yields the rows 3, 4 and 5. -/
theorem cursor_enumerates_past_empty :
    ∃ t, t = runOps 4096 (btCmp .table) firstLeafEmpty (Root.create 4096 2) ∧
      (t.leaves.map fun l => l.page.cells.length) = [0, 3] ∧
      ∃ c' r, cursorSeek t.fetch (btCmp .table) 3 2 .opened (rowidToKey 2) = some (c', r) ∧ r ≠ 0 ∧
        Enumerates (cursorNext t.fetch 3) Cursor.eof (Cursor.cell t.fetch) c'
          ([3, 4, 5].map fun r => (rowidToKey r, zeros 1010)) := by
  have hfit : OpsFit 4096 (btCmp .table) firstLeafEmpty (Root.create 4096 2) := by decide +kernel
  have hstored : (runOps 4096 (btCmp .table) firstLeafEmpty (Root.create 4096 2)).Stored :=
    ⟨by decide +kernel, by decide +kernel, by decide +kernel⟩
  have hleaves : ((runOps 4096 (btCmp .table) firstLeafEmpty (Root.create 4096 2)).leaves.map
      fun l => l.page.cells.length) = [0, 3] := by decide +kernel
  have hroot : (runOps 4096 (btCmp .table) firstLeafEmpty (Root.create 4096 2)).pgno = 2 := by
    decide +kernel
  have hentries : (runOps 4096 (btCmp .table) firstLeafEmpty (Root.create 4096 2)).entries
      = [3, 4, 5].map fun r => (rowidToKey r, zeros 1010) := by decide +kernel
  have hfrom : ([3, 4, 5].map fun r => (rowidToKey r, zeros 1010)).filter
      (fun e => btCmp .table e.1 (rowidToKey 2) ≠ .lt)
      = [3, 4, 5].map fun r => (rowidToKey r, zeros 1010) := by decide +kernel
  have hmissing : ∀ e ∈ [3, 4, 5].map fun r => (rowidToKey r, zeros 1010),
      btCmp .table e.1 (rowidToKey 2) ≠ .eq := by decide +kernel
  obtain ⟨t, ht⟩ : ∃ t, t = runOps 4096 (btCmp .table) firstLeafEmpty (Root.create 4096 2) := ⟨_, rfl⟩
  rw [← ht] at hstored hleaves hroot hentries
  have hlen : t.leaves.length < 3 := by
    rw [← length_map (fun l : Leaf => l.page.cells.length), hleaves]
    decide
  obtain ⟨-, hseek, -⟩ := cursor_enumerates hstored (sorted_runOps (by decide) ht hfit) .opened 3 hlen
  obtain ⟨c', r, hrun, henum, hr⟩ := hseek (rowidToKey 2)
  rw [hroot] at hrun
  rw [hentries, hfrom] at henum
  refine ⟨t, ht, hleaves, c', r, hrun, fun hzero => ?_, henum⟩
  obtain ⟨e, he, heq⟩ := hr.mp hzero
  rw [hentries] at he
  exact hmissing e he heq

end Tdb.BTree
