import TransactionDB.Value.Compare
import TransactionDB.Value.SqlType

/-!
# TransactionDB — schema objects

The structures of `src/catalog/tdb_schema.h` and the functions of `src/catalog/tdb_schema.c` on
them. Expressions of a table are kept as their SQL text. Left out are foreign keys, the history of
column layouts and the column references of an expression, which nothing fills in.
-/

namespace Tdb

/-- `tdb_generated_kind`. -/
inductive GeneratedKind where
  | none
  | virtual
  | stored
  deriving DecidableEq, Repr

/-- `tdb_column`. -/
structure Column where
  name : Bytes
  type : TypeSpec
  coll : Collation
  notnull : Bool
  pk : Bool
  unique : Bool
  hidden : Bool
  defaultSql : Option Bytes
  checkSql : Option Bytes
  generated : GeneratedKind
  generatedSql : Option Bytes
  luaCompute : Option Bytes
  deriving DecidableEq, Repr

/-- `tdb_column_init`. -/
def Column.init (name : Bytes) (type : TypeSpec) : Column :=
  ⟨name, type, .binary, false, false, false, false, none, none, .none, none, none⟩

/-- `tdb_index_kind`. -/
inductive IndexKind where
  | btree
  | rtree
  deriving DecidableEq, Repr

/-- `tdb_index`; each column is its place in the table and whether it is descending. -/
structure Index where
  name : Bytes
  root : UInt32
  unique : Bool
  kind : IndexKind
  cols : List (Nat × Bool)
  deriving DecidableEq, Repr

/-- `tdb_versioning`. -/
inductive Versioning where
  | none
  | system
  deriving DecidableEq, Repr

/-- `tdb_partition_kind`. -/
inductive PartitionKind where
  | none
  | range
  | list
  | hash
  deriving DecidableEq, Repr

/-- `tdb_table`. -/
structure TableDef where
  name : Bytes
  root : UInt32
  cols : List Column
  indexes : List Index
  /-- The table-level CHECK. -/
  checkSql : Option Bytes
  schemaVersion : UInt32
  versioning : Versioning
  /-- The hidden columns of the period, if there are any. -/
  rowStartCol : Option Nat
  rowEndCol : Option Nat
  historyRoot : UInt32
  columnar : Bool
  colRoots : List UInt32
  beforeInsertLua : Option Bytes
  beforeUpdateLua : Option Bytes
  beforeDeleteLua : Option Bytes
  tablespace : Option Bytes
  compression : Option Bytes
  partitionKind : PartitionKind
  partitionCols : List Bytes
  partitionCount : Nat
  deriving DecidableEq, Repr

/-- `tdb_table_new`. -/
def TableDef.new (name : Bytes) : TableDef where
  name := name
  root := 0
  cols := []
  indexes := []
  checkSql := none
  schemaVersion := 0
  versioning := .none
  rowStartCol := none
  rowEndCol := none
  historyRoot := 0
  columnar := false
  colRoots := []
  beforeInsertLua := none
  beforeUpdateLua := none
  beforeDeleteLua := none
  tablespace := none
  compression := none
  partitionKind := .none
  partitionCols := []
  partitionCount := 0

/-- `tdb_table_add_column`. -/
def TableDef.addColumn (t : TableDef) (c : Column) : TableDef := { t with cols := t.cols ++ [c] }

/-- `tdb_table_find_column`. -/
def TableDef.findColumn (t : TableDef) (name : Bytes) : Option Nat :=
  t.cols.findIdx? (fun c => sameName c.name name)

/-- `is_hash_partitioned`. -/
def TableDef.isHashPartitioned (t : TableDef) : Bool := t.partitionKind = .hash ∧ 0 < t.partitionCount

/-- A place behind a dropped column. -/
def shiftCol (ci i : Nat) : Nat := if ci < i then i - 1 else i

/-- `tdb_table_drop_column`. -/
def TableDef.dropColumn (t : TableDef) (ci : Nat) : TableDef :=
  { t with
    cols := t.cols.eraseIdx ci
    rowStartCol := t.rowStartCol.map (shiftCol ci)
    rowEndCol := t.rowEndCol.map (shiftCol ci)
    indexes := t.indexes.map fun ix =>
      { ix with cols := ix.cols.map fun c => (shiftCol ci c.1, c.2) } }

/-- `tdb_table_drop_index`. -/
def TableDef.dropIndex (t : TableDef) (pos : Nat) : TableDef :=
  { t with indexes := t.indexes.eraseIdx pos }

/-- `tdb_view`, without the flag `stale`, which nothing sets. -/
structure ViewDef where
  name : Bytes
  selectSql : Bytes
  materialized : Bool
  root : UInt32
  deriving DecidableEq, Repr

/-- `tdb_routine`; `nargs` is `none` for a routine that takes any number of arguments. -/
structure Routine where
  name : Bytes
  luaSrc : Bytes
  isFunction : Bool
  nargs : Option Nat
  deriving DecidableEq, Repr

end Tdb
