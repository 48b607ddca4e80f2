import TransactionDB.Engine.Row
import TransactionDB.Sql.Rows

/-!
# TransactionDB — the statements that change rows

`exec_insert`, `exec_update`, `exec_delete`, `exec_truncate` and `exec_alter` of
`src/sql/tdb_exec_dml.inc`, with the helpers they share, and `mat_table` of `src/sql/tdb_exec.c`,
over all tables of a database. A table is its definition and its trees. The rows of a table that is
partitioned by HASH are in child tables, found by their names.

A statement works on the tables as it finds them and stores its rows one after the other; `Work` is
what it has done so far. Expressions of a statement may read the tables (subqueries), as they are
when the expression is evaluated.

Left out: columnar tables and indexes, the names of result columns, the catalog records of
`ALTER TABLE`, and statements that run from within expressions. The arrays of the source have room
for 64 columns and 64 assignments; more of them are written past their ends.
-/

namespace Tdb.Exec

/-! ## Tables -/

/-- A table of the database. -/
structure Entry where
  defn : TableDef
  data : Table

/-- The tables in the order of the catalog; a table is known by its place. -/
abbrev Tables := List Entry

/-- `tdb_catalog_find_table`. -/
def Tables.find (db : Tables) (name : Bytes) : Option Nat :=
  List.findIdx? (fun e : Entry => sameName e.defn.name name) db

/-- The rows of a table. -/
def Tables.data (db : Tables) (i : Nat) : Table := (db[i]?.map Entry.data).getD .empty

/-- The definition of a table. -/
def Tables.defn (db : Tables) (i : Nat) : TableDef := (db[i]?.map Entry.defn).getD (.new [])

/-- A table by its name. -/
def Tables.lookup (db : Tables) (name : Bytes) : Except SqlMsg Nat :=
  match db.find name with
  | none => .error (.noSuchTable name)
  | some i => .ok i

def Tables.setData (db : Tables) (i : Nat) (tab : Table) : Tables :=
  List.modify db i fun e => { e with data := tab }

def Tables.setDefn (db : Tables) (i : Nat) (t : TableDef) : Tables :=
  List.modify db i fun e => { e with defn := t }

/-! ## HASH partitions -/

/-- `pv_hash`. -/
def pvHash : Value → UInt64
  | .null => 0x9e3779b97f4a7c15
  | .int i => i.toUInt64 * 0x100000001b3 ^^^ 0xcbf29ce484222325
  | .real bits => bits * 0x100000001b3
  | .text b | .blob b | .composite b => fnv1a b

/-- The name of child `k`, as `snprintf` leaves it in a buffer of 256 bytes. -/
def childName (name : Bytes) (k : Nat) : Bytes :=
  (name ++ "__p".toUTF8.toList ++ (toString k).toUTF8.toList).take 255

/-- The hash of the partition columns of a row. -/
def partitionHash (t : TableDef) (row : Row) : UInt64 → List Bytes → Except SqlMsg UInt64
  | h, [] => .ok h
  | h, col :: cols =>
    match t.findColumn col with
    | none => .error (.noPartitionColumn col t.name)
    | some ci => partitionHash t row ((h ^^^ pvHash (cellAt row ci)) * 1099511628211) cols

/-- `partition_pick_child`. -/
def partitionPickChild (db : Tables) (t : TableDef) (row : Row) : Except SqlMsg Nat :=
  match partitionHash t row 1469598103934665603 t.partitionCols with
  | .error msg => .error msg
  | .ok h =>
    let child := childName t.name (h.toNat % t.partitionCount)
    match db.find child with
    | none => .error (.noPartition child)
    | some ci => .ok ci

/-- The tables that hold the rows of table `i`. A child that is missing is passed over. -/
def Tables.parts (db : Tables) (i : Nat) (t : TableDef) : List Nat :=
  if t.isHashPartitioned then (List.range t.partitionCount).filterMap fun k => db.find (childName t.name k)
  else [i]

/-! ## Statements -/

/-- An expression of a statement. Subqueries read the tables. -/
structure StmtExpr where
  names : List Bytes
  fn : Tables → List Value → Value

structure BoundStmtExpr where
  cols : List Nat
  fn : Tables → List Value → Value

def BoundStmtExpr.eval (e : BoundStmtExpr) (db : Tables) (row : Row) : Value :=
  e.fn db (e.cols.map (cellAt row))

/-- `resolve_expr` of an expression over one table. -/
def StmtExpr.bind (t : TableDef) (e : StmtExpr) : Except SqlMsg BoundStmtExpr := do
  let is ← resolveNames t e.names
  return ⟨is, e.fn⟩

/-- A WHERE clause, which may be missing. -/
def bindWhere (t : TableDef) : Option StmtExpr → Except SqlMsg (Option BoundStmtExpr)
  | none => return none
  | some e => do
    let b ← e.bind t
    return some b

/-- One assignment of a SET list. -/
def bindSet (t : TableDef) (s : Bytes × StmtExpr) : Except SqlMsg (Nat × BoundStmtExpr) :=
  match t.findColumn s.1 with
  | none => .error (.noSuchColumn s.1)
  | some ci => do
    let b ← s.2.bind t
    return (ci, b)

/-- Whether a WHERE clause selects a row. -/
def whereTrue (db : Tables) (row : Row) : Option BoundStmtExpr → Bool
  | none => true
  | some e => valTrue (e.eval db row)

inductive RetItem where
  | star
  | expr (e : StmtExpr)

/-- `or_action`. -/
inductive ConflictAction where
  | abort
  | ignore
  | replace
  deriving DecidableEq, Repr

/-- `ON CONFLICT`. -/
inductive OnConflict where
  | doNothing
  | doUpdate (sets : List (Bytes × StmtExpr)) (cond : Option StmtExpr)

inductive InsertSource where
  | values (rows : List (List StmtExpr))
  /-- The result of a query on the tables. -/
  | select (q : Tables → Except (Status × Option SqlMsg) (List Row))

structure Insert where
  table : Bytes
  /-- The columns given, empty for none. -/
  cols : List Bytes
  source : InsertSource
  orAction : ConflictAction
  upsert : Option OnConflict
  returning : Option (List RetItem)

structure Update where
  table : Bytes
  sets : List (Bytes × StmtExpr)
  cond : Option StmtExpr
  returning : Option (List RetItem)

structure Delete where
  table : Bytes
  cond : Option StmtExpr
  returning : Option (List RetItem)

inductive CallKind where
  | insert
  | update
  | remove
  deriving DecidableEq, Repr

/-- A call of the engine: the table, the row id and the values to store, none for a removal. -/
structure Call where
  kind : CallKind
  table : Nat
  rowid : UInt64
  row : Row
  deriving DecidableEq, Repr

/-- What a statement has done so far: the tables, `st->changes`, the rows of RETURNING and
`last_insert_rowid`. `stored` keeps the calls of the engine that worked. -/
structure Work where
  db : Tables
  changes : Nat
  rows : List Row
  lastRowid : Option UInt64
  stored : List Call

/-- A statement, or a part of it. -/
structure Outcome where
  rc : Status
  msg : Option SqlMsg
  work : Work

def Work.start (db : Tables) : Work := ⟨db, 0, [], none, []⟩

def Work.fail (w : Work) (rc : Status) (msg : Option SqlMsg) : Outcome := ⟨rc, msg, w⟩

/-- `TDB_ERROR` with a message. -/
def Work.error (w : Work) (msg : SqlMsg) : Outcome := w.fail .error (some msg)

/-- The transaction a statement runs in, and what it is not allowed to do (`acl_check_or_err`). -/
structure StmtCtx where
  env : SqlEnv
  mgr : TxnMgr
  txn : Txn
  deny : Bytes → Bytes → Option SqlMsg

/-- `acl_check_or_err`. -/
def StmtCtx.allow (c : StmtCtx) (priv table : Bytes) : Except SqlMsg Unit :=
  match c.deny priv table with
  | some msg => .error msg
  | none => .ok ()

/-- What the engine makes of the table. -/
def Call.exec (txn : UInt64) (db : Tables) (call : Call) : Status × Table :=
  let tab := db.data call.table
  match call.kind with
  | .insert => engInsert txn tab call.rowid (recordEncode call.row)
  | .update => engUpdate txn tab call.rowid (recordEncode call.row)
  | .remove => engRemove txn tab call.rowid

/-- A call on behalf of a statement. -/
def Work.call (w : Work) (txn : UInt64) (call : Call) : Outcome :=
  let (rc, tab) := call.exec txn w.db
  ⟨rc, none, { w with db := w.db.setData call.table tab,
                      stored := if rc = .ok then w.stored ++ [call] else w.stored }⟩

/-- Go on after a step that worked. -/
def Outcome.andThen (o : Outcome) (f : Work → Outcome) : Outcome := if o.rc = .ok then f o.work else o

/-- A loop over rows, up to the first error. -/
def forEach {α : Type} (body : Work → α → Outcome) (w : Work) : List α → Outcome
  | [] => ⟨.ok, none, w⟩
  | x :: xs => (body w x).andThen fun w => forEach body w xs

/-! ## RETURNING -/

/-- The output columns of one item of the list. -/
def bindRetItem (t : TableDef) : RetItem → Except SqlMsg (List BoundStmtExpr)
  | .star =>
    return (t.cols.zipIdx.filter fun c => !c.1.hidden).map fun c => ⟨[c.2], fun _ vs => vs.headD .null⟩
  | .expr e => do
    let b ← e.bind t
    return [b]

/-- `returning_setup`. -/
def returningSetup (t : TableDef) : Option (List RetItem) → Except SqlMsg (Option (List BoundStmtExpr))
  | none => return none
  | some items => do
    let bs ← items.mapM (bindRetItem t)
    return some bs.flatten

/-- `returning_emit`. -/
def Work.emit (w : Work) (row : Row) : Option (List BoundStmtExpr) → Work
  | none => w
  | some es => { w with rows := w.rows ++ [es.map fun e => e.eval w.db row] }

/-! ## INSERT -/

/-- The table a finished row is stored in. -/
def storeTarget (db : Tables) (i : Nat) (t : TableDef) (row : Row) : Except SqlMsg Nat :=
  if t.isHashPartitioned then partitionPickChild db t row else .ok i

/-- `store_full`, then what its callers do with the finished row. -/
def storeFull (c : StmtCtx) (w : Work) (i : Nat) (t : TableDef) (row : Row) (rowid : UInt64)
    (isUpdate : Bool) (done : Work → Row → Work) : Outcome :=
  match finalizeRow c.env t row with
  | .error (rc, msg) => w.fail rc (some msg)
  | .ok row =>
    match storeTarget w.db i t row with
    | .error msg => w.error msg
    | .ok target =>
      let cells := row.take (w.db.defn target).cols.length
      (w.call c.txn.id ⟨if isUpdate then .update else .insert, target, rowid, cells⟩).andThen fun w =>
        ⟨.ok, none, done w row⟩

/-- The row with its defaults. A default that cannot be prepared is passed over. -/
def defaultRow (env : SqlEnv) (t : TableDef) : Row :=
  t.cols.map fun col =>
    match col.defaultSql with
    | none => .null
    | some sql =>
      match prepareColExpr env t sql with
      | .error _ => .null
      | .ok e => e.eval []

/-- The values given, put into their columns. -/
def placeValues (row : Row) : List Nat → Row → Row
  | ci :: target, v :: src => placeValues (row.set ci v) target src
  | _, _ => row

/-- The bounds of the period of a new row. -/
def stampPeriod (t : TableDef) (txn : UInt64) (row : Row) : Row :=
  if t.versioning = .system then
    let row := match t.rowStartCol with
      | some ci => row.set ci (.int txn.toInt64)
      | none => row
    match t.rowEndCol with
    | some ci => row.set ci (.int (Int64.ofInt (2 ^ 63 - 1)))
    | none => row
  else row

/-- The row id of a new row, and the row with its key. -/
def assignRowid (tab : Table) (pkc : Option Nat) (row : Row) : UInt64 × Row :=
  match pkc with
  | none => (engNextRowid tab, row)
  | some ci =>
    if cellAt row ci ≠ .null then ((cellAt row ci).asInt.toUInt64, row)
    else
      let rowid := engNextRowid tab
      (rowid, row.set ci (.int rowid.toInt64))

/-- The resolved `ON CONFLICT` clause. -/
inductive BoundConflict where
  | doNothing
  | doUpdate (sets : List (Nat × BoundStmtExpr)) (cond : Option BoundStmtExpr)

/-- The assignments of `DO UPDATE`; each sees those before it. -/
def upsertSets (db : Tables) (row : Row) (sets : List (Nat × BoundStmtExpr)) : Row :=
  sets.foldl (fun row s => row.set s.1 (s.2.eval db row)) row

/-- An `INSERT` with everything resolved. -/
structure InsertPlan where
  i : Nat
  t : TableDef
  target : List Nat
  orAction : ConflictAction
  upsert : Option BoundConflict
  returning : Option (List BoundStmtExpr)

/-- One more row was changed. -/
def Work.changed (w : Work) (row : Row) (returning : Option (List BoundStmtExpr)) : Work :=
  { w.emit row returning with changes := w.changes + 1 }

/-- The row id and the values of a new row, before it is finished. -/
def insertInput (c : StmtCtx) (p : InsertPlan) (w : Work) (src : Row) : UInt64 × Row :=
  let full := placeValues (defaultRow c.env p.t) p.target src
  let (rowid, full) := assignRowid (w.db.data p.i) (pkIntCol p.t) full
  (rowid, stampPeriod p.t c.txn.id full)

/-- The row that has this key already. -/
def insertConflict (c : StmtCtx) (p : InsertPlan) (w : Work) (rowid : UInt64) : Option Bytes :=
  if (pkIntCol p.t).isSome then (engSeekRowid c.mgr c.txn (w.db.data p.i) rowid).2 else none

/-- The row that `DO UPDATE` starts from. A record that cannot be decoded counts as one without
values. -/
def conflictRow (p : InsertPlan) (ex : Bytes) : Row :=
  (padRow p.t.cols.length ex).getD (List.replicate p.t.cols.length .null)

/-- `insert_row_vals`, and the count of its caller. -/
def insertRowVals (c : StmtCtx) (p : InsertPlan) (w : Work) (src : Row) : Outcome :=
  let (rowid, full) := insertInput c p w src
  match insertConflict c p w rowid with
  | none =>
    storeFull c w p.i p.t full rowid false fun w row =>
      { w.changed row p.returning with lastRowid := some rowid }
  | some ex =>
    match p.orAction, p.upsert with
    | .ignore, _ => ⟨.ok, none, w⟩
    | _, some .doNothing => ⟨.ok, none, w⟩
    | .replace, _ => storeFull c w p.i p.t full rowid true fun w row => w.changed row p.returning
    | _, some (.doUpdate sets cond) =>
      if whereTrue w.db (conflictRow p ex) cond then
        storeFull c w p.i p.t (upsertSets w.db (conflictRow p ex) sets) rowid true fun w row =>
          w.changed row p.returning
      else ⟨.ok, none, w⟩
    | _, none => w.fail .constraint (some (.uniquePrimaryKey p.t.name))

/-- The columns that values are for. -/
def insertTargets (t : TableDef) (cols : List Bytes) : Except SqlMsg (List Nat) :=
  if cols = [] then
    .ok ((t.cols.zipIdx.filter fun c => !c.1.hidden && c.1.generated = .none).map Prod.snd)
  else resolveNames t cols

/-- The clause `ON CONFLICT`. -/
def bindConflict (t : TableDef) : Option OnConflict → Except SqlMsg (Option BoundConflict)
  | none => return none
  | some .doNothing => return some .doNothing
  | some (.doUpdate sets cond) => do
    if 64 < sets.length then throw .tooManySets
    let sets ← sets.mapM (bindSet t)
    let cond ← bindWhere t cond
    return some (.doUpdate sets cond)

/-- Everything that `exec_insert` resolves before it looks at the rows. -/
def planInsert (c : StmtCtx) (db : Tables) (a : Insert) : Except SqlMsg InsertPlan := do
  let i ← db.lookup a.table
  c.allow "INSERT".toUTF8.toList a.table
  let t := db.defn i
  let target ← insertTargets t a.cols
  let returning ← returningSetup t a.returning
  let upsert ← bindConflict t a.upsert
  return ⟨i, t, target, a.orAction, upsert, returning⟩

/-- The value expressions of an `INSERT` are resolved against no table. -/
def noTable : TableDef := .new []

/-- `exec_insert`. -/
def execInsert (c : StmtCtx) (db : Tables) (a : Insert) : Outcome :=
  let w := Work.start db
  match planInsert c db a with
  | .error msg => w.error msg
  | .ok p =>
    match a.source with
    | .select q =>
      match q db with
      | .error (rc, msg) => w.fail rc msg
      | .ok rows => forEach (insertRowVals c p) w rows
    | .values rows =>
      match rows.mapM (List.mapM (StmtExpr.bind noTable)) with
      | .error msg => w.error msg
      | .ok rows =>
        forEach (fun w es => insertRowVals c p w (es.map fun e => e.eval w.db [])) w rows

/-! ## UPDATE, DELETE and TRUNCATE -/

/-- A row that was collected: the table it is in, its row id and its values. -/
structure MatRow where
  src : Nat
  rowid : UInt64
  row : Row

/-- `mat_rid_one`; the row gets the columns of the parent. -/
def matRidOne (c : StmtCtx) (db : Tables) (ncol src : Nat) : Except Status (List MatRow) :=
  let (rc, rows) := engScan c.mgr c.txn (db.data src) 0
  match rows.mapM fun e => (padRow ncol e.2).map fun row => (⟨src, e.1, row⟩ : MatRow) with
  | none => .error .corrupt
  | some rows => if rc = .ok then .ok rows else .error rc

/-- `mat_rid`. -/
def matRid (c : StmtCtx) (db : Tables) (i : Nat) (t : TableDef) : Except Status (List MatRow) :=
  match (db.parts i t).mapM (matRidOne c db t.cols.length) with
  | .error rc => .error rc
  | .ok rows => .ok rows.flatten

/-- An `UPDATE` or `DELETE` with everything resolved. -/
structure ChangePlan where
  i : Nat
  t : TableDef
  sets : List (Nat × BoundStmtExpr)
  cond : Option BoundStmtExpr
  returning : Option (List BoundStmtExpr)

def planChange (c : StmtCtx) (db : Tables) (priv table : Bytes) (sets : List (Bytes × StmtExpr))
    (cond : Option StmtExpr) (returning : Option (List RetItem)) : Except SqlMsg ChangePlan := do
  let i ← db.lookup table
  c.allow priv table
  let t := db.defn i
  let cond ← bindWhere t cond
  let sets ← sets.mapM (bindSet t)
  let returning ← returningSetup t returning
  return ⟨i, t, sets, cond, returning⟩

/-- The assignments of an `UPDATE`; all see the row as it was. -/
def updateSets (db : Tables) (row : Row) (sets : List (Nat × BoundStmtExpr)) : Row :=
  sets.foldl (fun full s => full.set s.1 (s.2.eval db row)) row

/-- Store a changed row: in its table, or in the child it belongs to now. -/
def storeChanged (c : StmtCtx) (w : Work) (p : ChangePlan) (r : MatRow) (full : Row) : Outcome :=
  let id := c.txn.id
  if p.t.isHashPartitioned then
    match partitionPickChild w.db p.t full with
    | .error msg => w.error msg
    | .ok target =>
      if target = r.src then
        w.call id ⟨.update, r.src, r.rowid, full⟩
      else
        (w.call id ⟨.remove, r.src, r.rowid, []⟩).andThen fun w =>
          w.call id ⟨.insert, target, r.rowid, full⟩
  else w.call id ⟨.update, r.src, r.rowid, full⟩

/-- The body of the loop of `exec_update`. -/
def updateRow (c : StmtCtx) (p : ChangePlan) (w : Work) (r : MatRow) : Outcome :=
  if whereTrue w.db r.row p.cond then
    match finalizeRow c.env p.t (updateSets w.db r.row p.sets) with
    | .error (rc, msg) => w.fail rc (some msg)
    | .ok full => (storeChanged c w p r full).andThen fun w => ⟨.ok, none, w.changed full p.returning⟩
  else ⟨.ok, none, w⟩

/-- `exec_update`. -/
def execUpdate (c : StmtCtx) (db : Tables) (a : Update) : Outcome :=
  let w := Work.start db
  match planChange c db "UPDATE".toUTF8.toList a.table a.sets a.cond a.returning with
  | .error msg => w.error msg
  | .ok p =>
    match matRid c db p.i p.t with
    | .error rc => w.fail rc none
    | .ok rows => forEach (updateRow c p) w rows

/-- The body of the loop of `exec_delete`. -/
def deleteRow (c : StmtCtx) (p : ChangePlan) (w : Work) (r : MatRow) : Outcome :=
  if whereTrue w.db r.row p.cond then
    (w.call c.txn.id ⟨.remove, r.src, r.rowid, []⟩).andThen fun w =>
      ⟨.ok, none, w.changed r.row p.returning⟩
  else ⟨.ok, none, w⟩

/-- `exec_delete`. -/
def execDelete (c : StmtCtx) (db : Tables) (a : Delete) : Outcome :=
  let w := Work.start db
  match planChange c db "DELETE".toUTF8.toList a.table [] a.cond a.returning with
  | .error msg => w.error msg
  | .ok p =>
    match matRid c db p.i p.t with
    | .error rc => w.fail rc none
    | .ok rows => forEach (deleteRow c p) w rows

/-- `truncate_one`. -/
def truncateOne (c : StmtCtx) (w : Work) (i : Nat) : Outcome :=
  match engScan c.mgr c.txn (w.db.data i) 0 with
  | (.ok, rows) =>
    forEach (fun w (e : UInt64 × Bytes) =>
      (w.call c.txn.id ⟨.remove, i, e.1, []⟩).andThen fun w =>
        ⟨.ok, none, { w with changes := w.changes + 1 }⟩) w rows
  | (rc, _) => w.fail rc none

/-- `exec_truncate`. It asks for no privilege. -/
def execTruncate (c : StmtCtx) (db : Tables) (name : Bytes) (restart : Bool) : Outcome :=
  let w := Work.start db
  match db.find name with
  | none => w.error (.noSuchTable name)
  | some i =>
    if restart then w.fail .unsupported (some .restartIdentity)
    else forEach (truncateOne c) w (db.parts i (db.defn i))

/-- The statements that change rows. -/
inductive RowStmt where
  | insert (a : Insert)
  | update (a : Update)
  | delete (a : Delete)
  | truncate (name : Bytes) (restart : Bool)

/-- The table a statement names. -/
def RowStmt.table : RowStmt → Bytes
  | .insert a => a.table
  | .update a => a.table
  | .delete a => a.table
  | .truncate name _ => name

def RowStmt.exec (c : StmtCtx) (db : Tables) : RowStmt → Outcome
  | .insert a => execInsert c db a
  | .update a => execUpdate c db a
  | .delete a => execDelete c db a
  | .truncate name restart => execTruncate c db name restart

/-! ## Reading a table -/

/-- `mat_scan_one`. -/
def matScanOne (c : StmtCtx) (db : Tables) (asof : UInt64) (i : Nat) : Except Status (List Row) :=
  let (rc, rows) := engScan c.mgr c.txn (db.data i) asof
  match rows.mapM fun e => padRow ((db.defn i).cols.length) e.2 with
  | none => .error .corrupt
  | some rows => if rc = .ok then .ok rows else .error rc

/-- `mat_table`. -/
def matTable (c : StmtCtx) (db : Tables) (asof : UInt64) (i : Nat) (t : TableDef) :
    Except Status (List Row) :=
  match (db.parts i t).mapM (matScanOne c db asof) with
  | .error rc => .error rc
  | .ok rows => .ok rows.flatten

/-! ## ALTER TABLE -/

inductive Alter where
  | addColumn (col : Column)
  | renameColumn (col newname : Bytes)
  | renameTable (newname : Bytes)
  | dropColumn (col : Bytes)

/-- A record without column `ci`. -/
def dropColRecord (ci : Nat) (v : Bytes) : Option Bytes :=
  let (hdr, rec) := getRowhdr v
  match recordDecode rec 64 with
  | .error _ => none
  | .ok (vals, _) => some (wrapRow hdr.xmin hdr.xmax hdr.prev (recordEncode (vals.eraseIdx ci)))

/-- `rewrite_drop_col_bt`: the records of a tree in order, up to the first that cannot be decoded. -/
def rewriteDropCol (ci : Nat) : RowMap → List (UInt64 × Bytes) → Status × RowMap
  | m, [] => (.ok, m)
  | m, (id, v) :: rest =>
    match dropColRecord ci v with
    | none => (.corrupt, m)
    | some v => rewriteDropCol ci (m.insert id v) rest

/-- `eng_drop_column`. -/
def engDropColumn (tab : Table) (ci : Nat) : Status × Table :=
  match rewriteDropCol ci tab.main tab.main.toList with
  | (.ok, main) =>
    let (rc, hist) := rewriteDropCol ci tab.hist tab.hist.toList
    (rc, ⟨main, hist⟩)
  | (rc, main) => (rc, { tab with main := main })

/-- The column that `ALTER TABLE ADD COLUMN` makes of its definition: never hidden, never a key. -/
def addedColumn (col : Column) : Column :=
  { col with pk := false, hidden := false, luaCompute := none }

/-- Why a column cannot be dropped. -/
def dropRefused (t : TableDef) (ci : Nat) (name : Bytes) : Option SqlMsg :=
  let col := t.cols[ci]?
  if t.cols.length ≤ 1 then some (.onlyColumn t.name)
  else if col.any Column.pk then some (.dropsPrimaryKey name)
  else if col.any Column.hidden ∨ t.rowStartCol = some ci ∨ t.rowEndCol = some ci then
    some (.dropsSystemColumn name)
  else
    (t.indexes.find? fun ix => ix.cols.any fun c => c.1 = ci).map fun ix => .usedByIndex name ix.name

/-- `exec_alter`, on the tables in memory and their rows. -/
def execAlter (db : Tables) (table : Bytes) (a : Alter) : Status × Option SqlMsg × Tables :=
  match db.find table with
  | none => (.error, some (.noSuchTable table), db)
  | some i =>
    let t := db.defn i
    match a with
    | .addColumn col =>
      if (t.findColumn col.name).isSome then (.error, some (.duplicateColumn col.name), db)
      else
        (.ok, none, db.setDefn i { t.addColumn (addedColumn col) with
          schemaVersion := t.schemaVersion + 1 })
    | .renameColumn col newname =>
      match t.findColumn col with
      | none => (.error, some (.noSuchColumn col), db)
      | some ci =>
        (.ok, none, db.setDefn i { t with
          cols := t.cols.modify ci fun c => { c with name := newname }
          schemaVersion := t.schemaVersion + 1 })
    | .renameTable newname =>
      if (db.find newname).isSome then (.error, some (.tableExists newname), db)
      else (.ok, none, db.setDefn i { t with name := newname })
    | .dropColumn col =>
      match t.findColumn col with
      | none => (.error, some (.noSuchColumn col), db)
      | some ci =>
        match dropRefused t ci col with
        | some msg => (.error, some msg, db)
        | none =>
          match engDropColumn (db.data i) ci with
          | (.ok, tab) =>
            (.ok, none, (db.setData i tab).setDefn i { t.dropColumn ci with
              schemaVersion := t.schemaVersion + 1 })
          | (rc, tab) => (rc, none, db.setData i tab)

end Tdb.Exec
