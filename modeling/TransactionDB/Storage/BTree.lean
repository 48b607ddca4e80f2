import TransactionDB.Lib.SlottedPage
import TransactionDB.Lib.LowerBound
import TransactionDB.Value.Compare

/-!
# TransactionDB — the B-tree

`src/storage/tdb_btree.c`. A leaf cell is a key with its value, an interior cell a child with the
separator behind it; key `i` of an interior page is the largest key of child `i`, and a search
goes down the first child whose key is not below the target.

A page is a slotted page of cells. A child pointer is the subtree it points to, and a subtree
knows its number of levels; every page has its number. `tdb_pager_alloc` always has a page, and
`next` is the one it hands out. A value that does not fit into its cell is cut, and the cell has the
number of a chain of overflow pages behind the part it keeps; the size of the cell is the one of
that, and the value is kept whole.
-/

namespace Tdb.BTree

open SlottedPage

/-- `tdb_btree_kind`, with the `tdb_keyinfo` of an index if it has one. -/
inductive Kind where
  | table
  | index (ki : Option (List KeyCol))
  deriving DecidableEq, Repr

/-- The eight bytes `memcmp` reads of a rowid key. -/
def keyWord (a : Bytes) : Bytes := (a ++ zeros 8).take 8

/-- `bt_cmp`. -/
def btCmp : Kind → Bytes → Bytes → Ordering
  | .table, a, b => memcmp (keyWord a) (keyWord b)
  | .index (some ki), a, b => recordCompare ki a b
  | .index none, a, b => (memcmp a b).then (compare a.length b.length)

/-! ## Cells -/

/-- A key and its value. -/
abbrev LeafCell := Bytes × Bytes

/-- `tdb_varint_len`. -/
def varintLen (n : Nat) : Nat := (Varint.put 9 n).length

/-- `local_val_len`: the bytes of the value that stay in the cell. -/
def localValLen (ps klen vlen : Nat) : Nat :=
  let maxpayload := (ps - 12) / 4
  let hdr := varintLen klen + klen + varintLen vlen
  if hdr + vlen ≤ maxpayload then vlen else min (maxpayload - hdr - 4) vlen

/-- The size of the cell that `build_leaf_cell` makes. -/
def leafCellSize (ps : Nat) (c : LeafCell) : Nat :=
  let inCell := localValLen ps c.1.length c.2.length
  varintLen c.1.length + c.1.length + varintLen c.2.length + inCell
    + if inCell < c.2.length then 4 else 0

/-- The size of the cell that `build_int_cell` makes. -/
def intCellSize (key : Bytes) : Nat := 4 + varintLen key.length + key.length

def leafGeometry (ps : Nat) : Geometry LeafCell := ⟨ps, 8, leafCellSize ps⟩

def intGeometry (ps : Nat) (α : Type) : Geometry (α × Bytes) := ⟨ps, 12, fun c => intCellSize c.2⟩

/-! ## Nodes -/

structure Leaf where
  pgno : Nat
  page : SlottedPage.Page LeafCell
  deriving DecidableEq, Repr

/-- An interior page; `right` is the child behind the last separator. -/
structure Interior (α : Type) where
  pgno : Nat
  page : SlottedPage.Page (α × Bytes)
  right : α

/-- A subtree with `d` levels of interior pages. -/
def Tree : Nat → Type
  | 0 => Leaf
  | d + 1 => Interior (Tree d)

instance : Inhabited Leaf := ⟨⟨0, default⟩⟩

instance {α : Type} [Inhabited α] : Inhabited (Interior α) := ⟨⟨0, default, default⟩⟩

instance instInhabitedTree : (d : Nat) → Inhabited (Tree d)
  | 0 => inferInstanceAs (Inhabited Leaf)
  | d + 1 => @instInhabitedInterior (Tree d) (instInhabitedTree d)

def Leaf.keys (l : Leaf) : List Bytes := l.page.cells.map Prod.fst

def Interior.keys {α : Type} (n : Interior α) : List Bytes := n.page.cells.map Prod.snd

/-- Child `i`, the right one behind the last cell. -/
def Interior.child {α : Type} (n : Interior α) (i : Nat) : α :=
  match n.page.cells[i]? with
  | some c => c.1
  | none => n.right

/-- `set_intcell_child`, or `pg_set_right` behind the last cell. -/
def Interior.setChild {α : Type} (n : Interior α) (i : Nat) (c : α) : Interior α :=
  if i < n.page.ncell then
    { n with page := { n.page with slots := n.page.slots.modify i fun cell => (c, cell.2) } }
  else { n with right := c }

/-- The children from left to right. -/
def Interior.children {α : Type} (n : Interior α) : List α := n.page.cells.map Prod.fst ++ [n.right]

/-- The number of a subtree's top page. -/
def Tree.pgno : (d : Nat) → Tree d → Nat
  | 0, t => Leaf.pgno t
  | _ + 1, t => Interior.pgno t

/-- The subtree with its top page moved to another number. -/
def Tree.movedTo (pgno : Nat) : (d : Nat) → Tree d → Tree d
  | 0, t => { (t : Leaf) with pgno := pgno }
  | d + 1, t => { (t : Interior (Tree d)) with pgno := pgno }

/-- The entries of a subtree from left to right: what a cursor visits. -/
def Tree.entries : (d : Nat) → Tree d → List LeafCell
  | 0, t => (Leaf.page t).cells
  | d + 1, t => (Interior.children t).flatMap (Tree.entries d)

section

variable (ps : Nat) (cmp : Bytes → Bytes → Ordering)

/-! ## Searching -/

/-- `pg_find`: the first cell whose key is not below the target. -/
def pgFind (keys : List Bytes) (key : Bytes) : Nat :=
  LowerBound.find (fun i => cmp (keys.getD i []) key = .lt) keys.length

/-- Whether `pg_find` found the key itself. -/
def pgExact (keys : List Bytes) (key : Bytes) : Bool :=
  match keys[pgFind cmp keys key]? with
  | some k => cmp k key = .eq
  | none => false

/-! ## Splitting -/

/-- Where a leaf with the new cell is cut. -/
def leafCut (total : Nat) : Nat :=
  let left := if total / 2 < 1 then 1 else total / 2
  if left ≥ total then total - 1 else left

/-- `split_leaf`: the cells with the new one, distributed over two pages. The separator is the
largest key of the first. Whether a cell found room is not looked at. -/
def splitLeaf (p : SlottedPage.Page LeafCell) (ins : Nat) (cell : LeafCell) :
    SlottedPage.Page LeafCell × Bytes × SlottedPage.Page LeafCell :=
  let all := p.cells.insertIdx ins cell
  let left := leafCut all.length
  (fill (leafGeometry ps) (all.take left), (all.getD (left - 1) default).1,
    fill (leafGeometry ps) (all.drop left))

/-- The keys of an interior page with the new separator. -/
def Interior.keysWith {α : Type} (n : Interior α) (ins : Nat) (sep : Bytes) : List Bytes :=
  n.keys.insertIdx ins sep

/-- The children of an interior page with the child at `ins` replaced by the two halves of it. -/
def Interior.childrenWith {α : Type} (n : Interior α) (ins : Nat) (left right : α) : List α :=
  n.children.take ins ++ left :: right :: n.children.drop (ins + 1)

/-- `split_interior`: the middle key moves up, the others are distributed over two pages. -/
def splitInterior {α : Type} [Inhabited α] (n : Interior α) (ins : Nat) (left : α) (sep : Bytes)
    (right : α) (rightPgno : Nat) : Interior α × Bytes × Interior α :=
  let keys := n.keysWith ins sep
  let children := n.childrenWith ins left right
  let mid := keys.length / 2
  (⟨n.pgno, fill (intGeometry ps α) ((children.take mid).zip (keys.take mid)),
      children.getD mid default⟩,
    keys.getD mid [],
    ⟨rightPgno, fill (intGeometry ps α) ((children.drop (mid + 1)).zip (keys.drop (mid + 1))),
      children.getLastD default⟩)

/-! ## Inserting -/

/-- A subtree after an insertion. If its top page was split: the separator and the new page to the
right of it (`splitinfo`). -/
structure Inserted (α : Type) where
  node : α
  split : Option (Bytes × α)
  next : Nat

/-- The leaf without the cell whose place the new one takes. -/
def Leaf.cleared (l : Leaf) (key : Bytes) : SlottedPage.Page LeafCell :=
  if pgExact cmp l.keys key then deleteCell l.page (pgFind cmp l.keys key) else l.page

/-- `insert_rec` on a leaf. -/
def insertLeaf (next : Nat) (l : Leaf) (cell : LeafCell) : Inserted Leaf :=
  let idx := pgFind cmp l.keys cell.1
  match insertCell (leafGeometry ps) (l.cleared cmp cell.1) idx cell with
  | (true, p) => ⟨{ l with page := p }, none, next⟩
  | (false, p) =>
    let (left, sep, right) := splitLeaf ps p idx cell
    ⟨{ l with page := left }, some (sep, ⟨next, right⟩), next + 1⟩

/-- `insert_rec` on an interior page, after the insertion into child `ci`. -/
def insertInterior {α : Type} [Inhabited α] (n : Interior α) (ci : Nat) (r : Inserted α) :
    Inserted (Interior α) :=
  let n := n.setChild ci r.node
  match r.split with
  | none => ⟨n, none, r.next⟩
  | some (sep, right) =>
    match insertCell (intGeometry ps α) n.page ci (r.node, sep) with
    | (true, p) => ⟨Interior.setChild { n with page := p } (ci + 1) right, none, r.next⟩
    | (false, p) =>
      let (left, up, right) := splitInterior ps { n with page := p } ci r.node sep right r.next
      ⟨left, some (up, right), r.next + 1⟩

/-- `insert_rec`. -/
def insertRec : (d : Nat) → Nat → Tree d → LeafCell → Inserted (Tree d)
  | 0, next, t, cell => insertLeaf ps cmp next t cell
  | d + 1, next, t, cell =>
    let ci := pgFind cmp (Interior.keys t) cell.1
    insertInterior ps (t : Interior (Tree d)) ci (insertRec d next (Interior.child t ci) cell)

/-- `delete_cell` of `tdb_btree_remove`, in the leaf the search ends in. -/
def removeRec : (d : Nat) → Tree d → Bytes → Bool × Tree d
  | 0, t, key =>
    let l : Leaf := t
    if pgExact cmp l.keys key then
      (true, { l with page := deleteCell l.page (pgFind cmp l.keys key) })
    else (false, l)
  | d + 1, t, key =>
    let n : Interior (Tree d) := t
    let ci := pgFind cmp n.keys key
    let (found, child) := removeRec d (n.child ci) key
    (found, n.setChild ci child)

end

/-! ## The tree -/

/-- A B-tree with the pages it can still get. -/
structure Root where
  depth : Nat
  tree : Tree depth
  next : Nat

/-- `tdb_btree_create`. -/
def Root.create (ps pgno : Nat) : Root := ⟨0, (⟨pgno, empty (leafGeometry ps)⟩ : Leaf), pgno + 1⟩

def Root.entries (t : Root) : List LeafCell := t.tree.entries

/-- `grow_root`: the root page keeps its number and gets the two halves as children. -/
def growRoot (ps : Nat) {d : Nat} (r : Inserted (Tree d)) (sep : Bytes) (right : Tree d) : Root :=
  let moved := Tree.movedTo r.next d r.node
  let page := (insertCell (intGeometry ps (Tree d)) (empty (intGeometry ps (Tree d))) 0 (moved, sep)).2
  ⟨d + 1, (⟨Tree.pgno d r.node, page, right⟩ : Interior (Tree d)), r.next + 1⟩

/-- The check on the key that `tdb_btree_insert` makes. -/
def Admitted (ps : Nat) (key : Bytes) : Prop := key.length + 16 ≤ ps / 2

instance (ps : Nat) (key : Bytes) : Decidable (Admitted ps key) := inferInstanceAs (Decidable (_ ≤ _))

/-- `tdb_btree_insert`. -/
def Root.insert (ps : Nat) (cmp : Bytes → Bytes → Ordering) (t : Root) (key val : Bytes) :
    Status × Root :=
  if Admitted ps key then
    let r := insertRec ps cmp t.depth t.next t.tree (key, val)
    match r.split with
    | none => (.ok, ⟨t.depth, r.node, r.next⟩)
    | some (sep, right) => (.ok, growRoot ps r sep right)
  else (.full, t)

/-- `tdb_btree_remove`, with whether the key was found. -/
def Root.remove (cmp : Bytes → Bytes → Ordering) (t : Root) (key : Bytes) : Bool × Root :=
  let (found, tree) := removeRec cmp t.depth t.tree key
  (found, ⟨t.depth, tree, t.next⟩)

/-- `rowid_to_key`. -/
def rowidToKey (r : UInt64) : Bytes := putU64 r

/-- `key_to_rowid`. -/
def keyToRowid (k : Bytes) : UInt64 := getU64 k 0

/-- `tdb_btree_put`. -/
def Root.put (ps : Nat) (t : Root) (rowid : UInt64) (val : Bytes) : Status × Root :=
  t.insert ps (btCmp .table) (rowidToKey rowid) val

/-- `tdb_btree_del`. -/
def Root.del (t : Root) (rowid : UInt64) : Bool × Root := t.remove (btCmp .table) (rowidToKey rowid)

/-- The last cell of the last leaf: where `descend_rightmost` ends. -/
def Tree.lastCell : (d : Nat) → Tree d → Option LeafCell
  | 0, t => (Leaf.page t).cells.getLast?
  | d + 1, t => Tree.lastCell d (Interior.right t)

/-- `tdb_btree_max_rowid`: 0 if the last leaf is empty. -/
def Root.maxRowid (t : Root) : UInt64 :=
  match t.tree.lastCell with
  | some c => keyToRowid c.1
  | none => 0

end Tdb.BTree
