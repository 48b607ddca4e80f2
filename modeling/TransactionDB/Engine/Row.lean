import TransactionDB.Txn.Mvcc

/-!
# TransactionDB — the row engine

`src/storage/engine_row.c`: a table is a tree of rows, keyed by row id, and a tree of older
versions, keyed by version id. A stored value is the id of the transaction that created it,
the id of the one that deleted or replaced it (0 for none), the version id of the version
before it (0 for none), and the record.

The two B-trees are finite maps with ordered keys. Indexes are not part of this module: it has
`eng_insert` and `eng_update` up to their call of `index_apply`, and scans without an index.
Buffers and memory allocation do not fail here.
-/

namespace Tdb

/-- A table B-tree. -/
abbrev RowMap := Std.ExtTreeMap UInt64 Bytes

/-- The trees of a table: its rows, and their history. -/
structure Table where
  main : RowMap
  hist : RowMap

/-- `eng_create_table`. -/
def Table.empty : Table := ⟨∅, ∅⟩

/-- `tdb_btree_max_rowid`: the last key, 0 for an empty tree. -/
def maxRowid (m : RowMap) : UInt64 := (m.toList.getLast?.map Prod.fst).getD 0

/-! ## Row values -/

/-- `put_rowhdr`. -/
def putRowhdr (xmin xmax prev : UInt64) : Bytes := putVarint xmin ++ putVarint xmax ++ putVarint prev

/-- `wrap_row`. -/
def wrapRow (xmin xmax prev : UInt64) (rec : Bytes) : Bytes := putRowhdr xmin xmax prev ++ rec

/-- One varint of a header, and what is behind it. A malformed one is not skipped. -/
def nextVarint (b : Bytes) : UInt64 × Bytes :=
  match getVarint b 10 with
  | some (v, n) => (v, b.drop n)
  | none => (0, b)

structure RowHdr where
  xmin : UInt64
  xmax : UInt64
  prev : UInt64
  deriving DecidableEq, Repr

/-- `get_rowhdr`: the header and the record behind it. -/
def getRowhdr (b : Bytes) : RowHdr × Bytes :=
  let (xmin, b) := nextVarint b
  let (xmax, b) := nextVarint b
  let (prev, b) := nextVarint b
  (⟨xmin, xmax, prev⟩, b)

theorem nextVarint_put (v : UInt64) (rest : Bytes) : nextVarint (putVarint v ++ rest) = (v, rest) := by
  rw [nextVarint, getVarint_putVarint v rest (Varint.length_put_le 9 _)]
  simp

/-- A row value is read back as it was written. -/
@[simp] theorem getRowhdr_wrapRow (xmin xmax prev : UInt64) (rec : Bytes) :
    getRowhdr (wrapRow xmin xmax prev rec) = (⟨xmin, xmax, prev⟩, rec) := by
  simp only [getRowhdr, wrapRow, putRowhdr, List.append_assoc, nextVarint_put]

/-! ## Changing rows -/

/-- `eng_next_rowid`. -/
def engNextRowid (tab : Table) : UInt64 := maxRowid tab.main + 1

/-- `eng_insert`: whatever was stored for this row id is replaced. -/
def engInsert (txn : UInt64) (tab : Table) (rowid : UInt64) (rec : Bytes) : Status × Table :=
  (.ok, { tab with main := tab.main.insert rowid (wrapRow txn 0 0 rec) })

/-- `eng_update`: the stored version goes to the history. -/
def engUpdate (txn : UInt64) (tab : Table) (rowid : UInt64) (rec : Bytes) : Status × Table :=
  match tab.main[rowid]? with
  | none => (.notfound, tab)
  | some old =>
    let (ohdr, orec) := getRowhdr old
    let vid := maxRowid tab.hist + 1
    (.ok, { main := tab.main.insert rowid (wrapRow txn 0 vid rec),
            hist := tab.hist.insert vid (wrapRow ohdr.xmin txn ohdr.prev orec) })

/-- `eng_remove`: the stored version stays, as a tombstone. -/
def engRemove (txn : UInt64) (tab : Table) (rowid : UInt64) : Status × Table :=
  match tab.main[rowid]? with
  | none => (.notfound, tab)
  | some old =>
    let (ohdr, orec) := getRowhdr old
    (.ok, { tab with main := tab.main.insert rowid (wrapRow ohdr.xmin txn ohdr.prev orec) })

/-! ## Reading rows -/

/-- The loop of `resolve_visible`: the record of the first version that `vis` accepts. A chain
that runs in a circle never ends; a chain that ends visits a version at most once, so this is
the case when the fuel, one more than the size of the history, runs out. -/
def resolveVisible (vis : UInt64 → UInt64 → Bool) (hist : RowMap) : Nat → Bytes → Status × Option Bytes
  | 0, _ => (.hang, none)
  | fuel + 1, work =>
    let (hdr, rec) := getRowhdr work
    if vis hdr.xmin hdr.xmax then (.ok, some rec)
    else if hdr.prev = 0 then (.ok, none)
    else
      match hist[hdr.prev]? with
      | some v => resolveVisible vis hist fuel v
      | none => (.ok, none)

/-- `eng_seek_rowid`. -/
def engSeekRowid (m : TxnMgr) (t : Txn) (tab : Table) (rowid : UInt64) : Status × Option Bytes :=
  match tab.main[rowid]? with
  | some v => resolveVisible (txnVisible m t) tab.hist (tab.hist.size + 1) v
  | none => (.ok, none)

/-- The test that a scan uses, with `FOR SYSTEM_TIME AS OF` or without. -/
def scanVisible (m : TxnMgr) (t : Txn) (asof xmin xmax : UInt64) : Bool :=
  if asof ≠ 0 then txnVisibleAsof m xmin xmax asof else txnVisible m t xmin xmax

/-- The calls of `eng_scan_next` for the rows from the cursor on, up to the first error. -/
def scanRows (vis : UInt64 → UInt64 → Bool) (hist : RowMap) :
    List (UInt64 × Bytes) → Status × List (UInt64 × Bytes)
  | [] => (.ok, [])
  | (rid, v) :: rest =>
    match resolveVisible vis hist (hist.size + 1) v with
    | (.ok, found) =>
      let (rc, rows) := scanRows vis hist rest
      (rc, found.toList.map (fun rec => (rid, rec)) ++ rows)
    | (rc, _) => (rc, [])

/-- What scans return can be compared; found once, for long statements about scans. -/
instance : DecidableEq (Status × List (UInt64 × Bytes)) := inferInstance

/-- A full scan, `asof` 0 for the transaction's snapshot. -/
def engScan (m : TxnMgr) (t : Txn) (tab : Table) (asof : UInt64) : Status × List (UInt64 × Bytes) :=
  scanRows (scanVisible m t asof) tab.hist tab.main.toList

end Tdb
