import TransactionDB.Catalog.Catalog
import TransactionDB.Sql.Statement

/-!
# TransactionDB — the statements that change the schema

`exec_create_table`, `exec_create_index`, `exec_drop`, `exec_create_view`, `exec_create_routine`,
`exec_alter`, `exec_tablespace_create`, `exec_tablespace_drop` and `exec_grant` of
`src/sql/tdb_exec_dml.inc`, with `tdb_ast_to_table` of `src/sql/tdb_analyze.c` and the keywords of
`parse_drop` in `src/sql/tdb_parser.c`.

The statements change three things: the objects in memory, the records of the catalog tree, and what
the storage engine keeps. The engine is a parameter (`DdlEngine`) and may fail at every call, and so
may the pages of the catalog tree. A statement stops at the first failure and leaves what it has done.

PL/SQL routines are in memory only. Left out are the schema cookie, the definitions in the Lua state,
and the counters of a connection.
-/

namespace Tdb.Ddl

open Exec

/-- A routine in PL/SQL. -/
structure PlRoutine where
  name : Bytes
  source : Bytes
  isFunction : Bool
  nargs : Nat
  deriving DecidableEq, Repr

/-- What the statements work on: the catalog, the PL/SQL routines of the connection, and the rest of
the storage. -/
structure State (σ : Type) where
  cat : Catalog
  plsql : List PlRoutine
  store : σ

/-- What is asked of the storage. A call that makes trees gives the object with their roots. -/
structure DdlEngine (σ : Type) where
  pageSize : Nat
  createTable : σ → TableDef → Status × TableDef × σ
  dropTable : σ → TableDef → Status × σ
  createIndex : σ → TableDef → Index → Status × Index × σ
  dropIndex : σ → Index → Status × σ
  addColumn : σ → TableDef → Status × TableDef × σ
  dropColumn : σ → TableDef → Nat → Status × TableDef × σ
  /-- One row under the next rowid. -/
  insertRow : σ → TableDef → Bytes → Status × σ
  /-- The pages of the catalog tree can be written. -/
  catalogIo : σ → Status × σ
  /-- `tdb_plsql_parse`: the reason why it does not compile. -/
  plsqlParse : Bytes → List Bytes → Option Bytes
  /-- `tdb_lua_define`: the reason why it cannot be defined. -/
  luaDefine : Bytes → Bytes → Option Bytes

inductive DdlMsg where
  | sql (msg : SqlMsg)
  /-- "PRIMARY KEY names unknown column" -/
  | unknownKeyColumn
  /-- "no such index: %s" -/
  | noSuchIndex (name : Bytes)
  /-- "no such view: %s" -/
  | noSuchView (name : Bytes)
  /-- "view %s already exists" -/
  | viewExists (name : Bytes)
  /-- "routine %s already exists (use OR REPLACE)" -/
  | routineExists (name : Bytes)
  /-- "PL/SQL compile error: %s" -/
  | plsqlError (why : Bytes)
  /-- The reason of the Lua compiler. -/
  | luaError (why : Bytes)
  /-- "spatial index requires exactly one geometry column" -/
  | spatialColumns
  /-- "spatial index requires a row-organized table" -/
  | spatialColumnar
  /-- "spatial index column must be a geometry type" -/
  | spatialType
  /-- "tablespace %s already exists" -/
  | tablespaceExists (name : Bytes)
  /-- "no such tablespace: %s" -/
  | noSuchTablespace (name : Bytes)
  /-- "tablespace %s still in use by table %s" -/
  | tablespaceInUse (name table : Bytes)
  /-- "missing object name in %s", for GRANT or REVOKE -/
  | noObjectName (revoke : Bool)
  deriving DecidableEq, Repr

/-- How a statement ends. -/
structure Result (σ : Type) where
  rc : Status
  msg : Option DdlMsg
  db : State σ

section

variable {σ : Type} (E : DdlEngine σ) (d : State σ)

def State.done (rc : Status) : Result σ := ⟨rc, none, d⟩

def State.fail (msg : DdlMsg) : Result σ := ⟨.error, some msg, d⟩

/-- An operation that writes the catalog tree, if its pages can be written. -/
def State.catalog (op : Catalog → Status × Catalog) : Status × State σ :=
  match E.catalogIo d.store with
  | (.ok, store) =>
    let (rc, cat) := op d.cat
    (rc, { d with cat, store })
  | (rc, store) => (rc, { d with store })

/-- `tdb_catalog_drop_table` and the like, which do not look at the result of `del_row`. -/
def State.forget (drop : Catalog → Catalog) : State σ :=
  match E.catalogIo d.store with
  | (.ok, store) => { d with cat := drop d.cat, store }
  | (_, store) => { d with cat := { d.cat with cache := (drop d.cat).cache }, store }

/-- A table changes in memory. -/
def State.setTable (name : Bytes) (t : TableDef) : State σ :=
  { d with cat := { d.cat with cache := d.cat.cache.setTable name t } }

/-- `tdb_catalog_update_table_as`, as the end of a statement. -/
def State.updateTableAs (name : Bytes) (t : TableDef) : Result σ :=
  let (rc, d) := d.catalog E fun c => c.updateTableAs E.pageSize name t
  d.done rc

/-! ## CREATE TABLE -/

/-- `tdb_create_table`, without the columns that `AS SELECT` gives. -/
structure CreateTable (σ : Type) where
  name : Bytes
  ifNotExists : Bool
  cols : List Column
  pkCols : List Bytes
  checkSql : Option Bytes
  columnar : Bool
  tablespace : Option Bytes
  compression : Option Bytes
  partitionKind : PartitionKind
  partitionCols : List Bytes
  partitionCount : Nat
  /-- The names of the columns of the period, of a table with system versioning. -/
  versioning : Option (Bytes × Bytes)
  /-- `run_subselect`: the columns and the records of the rows, or how it fails. -/
  asSelect : Option (State σ → Except Status (List Column × List Bytes))

/-- The columns of a table-level PRIMARY KEY. -/
def keyColumns : List Bytes → TableDef → Except DdlMsg TableDef
  | [], t => .ok t
  | name :: names, t =>
    match t.findColumn name with
    | none => .error .unknownKeyColumn
    | some ci => keyColumns names { t with cols := t.cols.modify ci fun c => { c with pk := true } }

/-- A column of the period. -/
def periodColumn (name : Bytes) : Column :=
  { Column.init name (.plain .timestamp) with hidden := true, notnull := true }

/-- `tdb_ast_to_table`. -/
def astToTable (ct : CreateTable σ) : Except DdlMsg TableDef := do
  let t ← keyColumns ct.pkCols { TableDef.new ct.name with cols := ct.cols }
  let t := { t with
    checkSql := ct.checkSql, columnar := ct.columnar, tablespace := ct.tablespace
    compression := ct.compression, partitionKind := ct.partitionKind
    partitionCols := ct.partitionCols
    partitionCount :=
      if ct.partitionKind = .hash ∧ ct.partitionCount = 0 then 4
      else if ct.partitionKind = .none then 0 else ct.partitionCount }
  match ct.versioning with
  | none => pure t
  | some (start, stop) =>
    pure { (t.addColumn (periodColumn start)).addColumn (periodColumn stop) with
      rowStartCol := some t.cols.length, rowEndCol := some (t.cols.length + 1), versioning := .system }

/-- A table is made and goes into the catalog. -/
def State.makeTable (t : TableDef) : Status × TableDef × State σ :=
  match E.createTable d.store t with
  | (.ok, t, store) =>
    let (rc, d) := State.catalog E { d with store } fun c => c.addTable E.pageSize t
    (rc, t, d)
  | (rc, t, store) => (rc, t, { d with store })

/-- A child of a table that is partitioned by HASH has its columns without what is computed. -/
def childTable (t : TableDef) (name : Bytes) : TableDef :=
  { TableDef.new name with
    cols := t.cols.map fun c => { c with generated := .none, generatedSql := none, luaCompute := none } }

/-- The children of a partitioned table; one that exists is taken as it is. -/
def makeChildren (t : TableDef) : List Nat → State σ → Status × State σ
  | [], d => (.ok, d)
  | k :: ks, d =>
    if (d.cat.findTable (childName t.name k)).isSome then makeChildren t ks d
    else
      match d.makeTable E (childTable t (childName t.name k)) with
      | (.ok, _, d) => makeChildren t ks d
      | (rc, _, d) => (rc, d)

/-- The rows of `AS SELECT`. -/
def insertRows (t : TableDef) : List Bytes → State σ → Status × State σ
  | [], d => (.ok, d)
  | row :: rows, d =>
    match E.insertRow d.store t row with
    | (.ok, store) => insertRows t rows { d with store }
    | (rc, store) => (rc, { d with store })

/-- `exec_create_table`. -/
def execCreateTable (ct : CreateTable σ) : Result σ :=
  if (d.cat.findTable ct.name).isSome then
    if ct.ifNotExists then d.done .ok else d.fail (.sql (.tableExists ct.name))
  else
    match ct.asSelect with
    | some sel =>
      match sel d with
      | .error rc => d.done rc
      | .ok (cols, rows) =>
        match astToTable { ct with cols } with
        | .error msg => d.fail msg
        | .ok t =>
          match d.makeTable E t with
          | (.ok, t, d) =>
            let (rc, d) := insertRows E t rows d
            d.done rc
          | (rc, _, d) => d.done rc
    | none =>
      match astToTable ct with
      | .error msg => d.fail msg
      | .ok t =>
        match d.makeTable E t with
        | (.ok, t, d) =>
          if t.isHashPartitioned then
            let (rc, d) := makeChildren E t (List.range t.partitionCount) d
            d.done rc
          else d.done .ok
        | (rc, _, d) => d.done rc

/-! ## CREATE INDEX -/

/-- `tdb_create_index`. -/
structure CreateIndex where
  table : Bytes
  name : Bytes
  unique : Bool
  kind : IndexKind
  cols : List (Bytes × Bool)
  deriving DecidableEq, Repr

/-- The places of the columns of an index. -/
def indexCols (t : TableDef) : List (Bytes × Bool) → Except DdlMsg (List (Nat × Bool))
  | [] => .ok []
  | (name, desc) :: cols =>
    match t.findColumn name with
    | none => .error (.sql (.noSuchColumn name))
    | some ci => (indexCols t cols).map ((ci, desc) :: ·)

/-- Why the table cannot have the spatial index. -/
def spatialRefused (t : TableDef) (ci : CreateIndex) (cols : List (Nat × Bool)) : Option DdlMsg :=
  if ci.kind = .btree then none
  else
    match cols with
    | [] => none
    | (col, _) :: _ =>
      let id := (t.cols[col]?).map fun c => c.type.id
      if id = some .geometry ∨ id = some .point ∨ id = some .geography then none else some .spatialType

/-- `exec_create_index`. -/
def execCreateIndex (ci : CreateIndex) : Result σ :=
  match d.cat.findTable ci.table with
  | none => d.fail (.sql (.noSuchTable ci.table))
  | some t =>
    if ci.kind = .rtree ∧ ci.cols.length ≠ 1 then d.fail .spatialColumns
    else if ci.kind = .rtree ∧ t.columnar then d.fail .spatialColumnar
    else
      match indexCols t ci.cols with
      | .error msg => d.fail msg
      | .ok cols =>
        match spatialRefused t ci cols with
        | some msg => d.fail msg
        | none =>
          let ix : Index := ⟨ci.name, 0, ci.unique, ci.kind, cols⟩
          let t := { t with indexes := t.indexes ++ [ix] }
          -- the index is in memory before its tree is made
          let d := d.setTable ci.table t
          match E.createIndex d.store t ix with
          | (.ok, ix, store) =>
            let t := { t with indexes := t.indexes.dropLast ++ [ix] }
            (State.setTable { d with store } ci.table t).updateTableAs E t.name t
          | (rc, ix, store) =>
            let t := { t with indexes := t.indexes.dropLast ++ [ix] }
            (State.setTable { d with store } ci.table t).done rc

/-! ## DROP -/

/-- The word behind DROP. -/
inductive DropWord where
  | table
  | index
  | view
  | tablespace
  | function
  | procedure
  /-- Any other token. -/
  | other
  deriving DecidableEq, Repr

/-- The kinds of statement that `parse_drop` makes. -/
inductive DropKind where
  | table
  | index
  | view
  | tablespace
  deriving DecidableEq, Repr

/-- `parse_drop`: every word that it does not know is TABLE. -/
def parseDrop : DropWord → DropKind
  | .tablespace => .tablespace
  | .index => .index
  | .view => .view
  | _ => .table

structure Drop where
  word : DropWord
  ifExists : Bool
  name : Bytes
  deriving DecidableEq, Repr

/-- The first table with an index of the name, and the place of the index. -/
def findIndex (m : SchemaCache) (name : Bytes) : Option (Nat × TableDef × Nat) := do
  let i ← m.tables.findIdx? fun t => t.indexes.any fun ix => sameName ix.name name
  let t ← m.tables[i]?
  let pos ← t.indexes.findIdx? fun ix => sameName ix.name name
  return (i, t, pos)

/-- What is missing: an error, unless IF EXISTS. -/
def State.missing (ifExists : Bool) (msg : DdlMsg) : Result σ := if ifExists then d.done .ok else d.fail msg

/-- `exec_drop` and `exec_tablespace_drop`. -/
def execDrop (s : Drop) : Result σ :=
  match parseDrop s.word with
  | .table =>
    match d.cat.findTable s.name with
    | none => d.missing s.ifExists (.sql (.noSuchTable s.name))
    | some t =>
      match E.dropTable d.store t with
      | (.ok, store) => (State.forget E { d with store } fun c => c.dropTable s.name).done .ok
      | (rc, store) => State.done { d with store } rc
  | .index =>
    match findIndex d.cat.cache s.name with
    | none => d.missing s.ifExists (.noSuchIndex s.name)
    | some (i, t, pos) =>
      match t.indexes[pos]? with
      | none => d.missing s.ifExists (.noSuchIndex s.name)
      | some ix =>
        match E.dropIndex d.store ix with
        | (.ok, store) =>
          let t := t.dropIndex pos
          let d : State σ := { d with store, cat := { d.cat with cache := d.cat.cache.setTableAt i t } }
          d.updateTableAs E t.name t
        | (rc, store) => State.done { d with store } rc
  | .view =>
    if (d.cat.findView s.name).isNone then d.missing s.ifExists (.noSuchView s.name)
    else (d.forget E fun c => c.dropView s.name).done .ok
  | .tablespace =>
    if !s.ifExists && !d.cat.tablespaceExists s.name then d.fail (.noSuchTablespace s.name)
    else
      match d.cat.cache.tables.find? fun t => t.tablespace.any (sameName · s.name) with
      | some t => d.fail (.tablespaceInUse s.name t.name)
      | none =>
        if d.cat.tablespaceExists s.name then
          let (rc, d) := d.catalog E fun c => c.tablespaceDrop s.name s.ifExists
          d.done rc
        else d.done .ok

/-! ## Views and routines -/

/-- `exec_create_view`. -/
def execCreateView (name selectSql : Bytes) (materialized ifNotExists : Bool) : Result σ :=
  if (d.cat.findView name).isSome then
    if ifNotExists then d.done .ok else d.fail (.viewExists name)
  else
    let (rc, d) := d.catalog E fun c => c.addView E.pageSize ⟨name, selectSql, materialized, 0⟩
    d.done rc

structure CreateRoutine where
  name : Bytes
  orReplace : Bool
  lang : Option Bytes
  params : List Bytes
  source : Option Bytes
  isFunction : Bool
  deriving DecidableEq, Repr

/-- The body as a Lua function. -/
def luaFunction (cr : CreateRoutine) : Bytes :=
  "function(".toUTF8.toList ++ [44].intercalate cr.params ++ ") ".toUTF8.toList ++ cr.source.getD [] ++
    " end".toUTF8.toList

def CreateRoutine.isPlsql (cr : CreateRoutine) : Bool :=
  cr.lang.any fun l => sameName l "plsql".toUTF8.toList || sameName l "plpgsql".toUTF8.toList

/-- `exec_create_routine`. -/
def execCreateRoutine (cr : CreateRoutine) : Result σ :=
  let inCatalog := (d.cat.findRoutine cr.name).isSome
  let inPlsql := d.plsql.any fun r => sameName r.name cr.name
  if (inCatalog || inPlsql) && !cr.orReplace then d.fail (.routineExists cr.name)
  else
    -- the old routine goes before the new one is looked at
    let d := if inCatalog then d.forget E fun c => c.dropRoutine cr.name else d
    if cr.isPlsql then
      match E.plsqlParse (cr.source.getD []) cr.params with
      | some why => d.fail (.plsqlError why)
      | none =>
        let r : PlRoutine := ⟨cr.name, cr.source.getD [], cr.isFunction, cr.params.length⟩
        State.done { d with plsql := r :: d.plsql.eraseP fun r => sameName r.name cr.name } .ok
    else
      match E.luaDefine cr.name (luaFunction cr) with
      | some why => d.fail (.luaError why)
      | none =>
        let (rc, d) := d.catalog E fun c =>
          c.addRoutine E.pageSize ⟨cr.name, luaFunction cr, cr.isFunction, some cr.params.length⟩
        d.done rc

/-! ## ALTER TABLE -/

/-- `exec_alter`. -/
def execAlter (table : Bytes) (a : Alter) : Result σ :=
  match d.cat.findTable table with
  | none => d.fail (.sql (.noSuchTable table))
  | some t =>
    match a with
    | .addColumn col =>
      if (t.findColumn col.name).isSome then d.fail (.sql (.duplicateColumn col.name))
      else
        let t := t.addColumn (addedColumn col)
        match E.addColumn d.store t with
        | (.ok, t, store) =>
          let t := { t with schemaVersion := t.schemaVersion + 1 }
          (State.setTable { d with store } table t).updateTableAs E t.name t
        | (rc, t, store) => (State.setTable { d with store } table t).done rc
    | .renameColumn col newname =>
      match t.findColumn col with
      | none => d.fail (.sql (.noSuchColumn col))
      | some ci =>
        let t := { t with
          cols := t.cols.modify ci fun c => { c with name := newname }
          schemaVersion := t.schemaVersion + 1 }
        (d.setTable table t).updateTableAs E t.name t
    | .renameTable newname =>
      if (d.cat.findTable newname).isSome then d.fail (.sql (.tableExists newname))
      else (d.setTable table { t with name := newname }).updateTableAs E t.name { t with name := newname }
    | .dropColumn col =>
      match t.findColumn col with
      | none => d.fail (.sql (.noSuchColumn col))
      | some ci =>
        match dropRefused t ci col with
        | some msg => d.fail (.sql msg)
        | none =>
          match E.dropColumn d.store t ci with
          | (.ok, t, store) =>
            let t := { t.dropColumn ci with schemaVersion := t.schemaVersion + 1 }
            (State.setTable { d with store } table t).updateTableAs E t.name t
          | (rc, t, store) => (State.setTable { d with store } table t).done rc

/-! ## Tablespaces and grants -/

/-- `exec_tablespace_create`. -/
def execTablespaceCreate (name : Bytes) (location : Option Bytes) (ifNotExists : Bool) : Result σ :=
  if !ifNotExists && d.cat.tablespaceExists name then d.fail (.tablespaceExists name)
  else if name = [] then d.done .misuse
  else if d.cat.tablespaceExists name then d.done .ok
  else
    let (rc, d) := d.catalog E fun c => c.tablespaceCreate E.pageSize name location ifNotExists
    d.done rc

/-- `tdb_acl_kind_of`: the kinds of object and their words. -/
def aclKinds : List (Bytes × UInt8) :=
  [("TABLE".toUTF8.toList, aclTable), ("INDEX".toUTF8.toList, 2), ("VIEW".toUTF8.toList, 3),
    ("FUNCTION".toUTF8.toList, 4), ("PROCEDURE".toUTF8.toList, 5), ("TABLESPACE".toUTF8.toList, 6),
    ("DATABASE".toUTF8.toList, 7), ("SEQUENCE".toUTF8.toList, 8)]

/-- `parse_grant_object`: a word for the kind in front of the name, or TABLE. The word need not end
where the name starts: `TABLET` is the table `T`. -/
def parseGrantObject (src : Bytes) : UInt8 × Bytes :=
  let src := src.dropWhile isSpace
  match aclKinds.find? fun k => sameName (src.take k.1.length) k.1 with
  | none => (aclTable, src)
  | some (word, kind) => (kind, (src.drop word.length).dropWhile isSpace)

/-- `split_privs`: the words between blanks and commas, in upper case. -/
def splitPrivs (src : Bytes) : List Bytes :=
  ((src.splitOnP fun b => isSpace b || b = 44).filter (· ≠ [])).map fun w => w.map upperAscii

structure Grant where
  revoke : Bool
  privs : Bytes
  object : Bytes
  grantee : Option Bytes
  deriving DecidableEq, Repr

/-- One privilege of a GRANT: into memory, then into the catalog. -/
def grantOne (grantee : Bytes) (kind : UInt8) (object priv : Bytes) : Status × State σ :=
  match aclGrant d.cat.cache.acl (some grantee) (some priv) kind (some object) with
  | (.ok, acl) =>
    let d : State σ := { d with cat := { d.cat with cache := { d.cat.cache with acl } } }
    d.catalog E fun c => c.aclPersist E.pageSize ⟨grantee, priv, kind, some object⟩
  | (rc, _) => (rc, d)

/-- One privilege of a REVOKE. -/
def revokeOne (grantee : Bytes) (kind : UInt8) (object priv : Bytes) : Status × State σ :=
  let acl := aclRevoke d.cat.cache.acl (some grantee) (some priv) kind (some object)
  let d : State σ := { d with cat := { d.cat with cache := { d.cat.cache with acl } } }
  d.catalog E fun c => (.ok, c.aclUnpersist (some grantee) (some priv) kind (some object))

/-- The privileges one after the other, up to the first failure. -/
def eachPriv (one : State σ → Bytes → Status × State σ) : List Bytes → State σ → Status × State σ
  | [], d => (.ok, d)
  | p :: ps, d =>
    match one d p with
    | (.ok, d) => eachPriv one ps d
    | (rc, d) => (rc, d)

/-- `exec_grant`. -/
def execGrant (g : Grant) : Result σ :=
  let (kind, object) := parseGrantObject g.object
  if object = [] then d.fail (.noObjectName g.revoke)
  else
    let grantee := g.grantee.getD "PUBLIC".toUTF8.toList
    let one := fun d p =>
      if g.revoke then revokeOne E d grantee kind object p else grantOne E d grantee kind object p
    let (rc, d) := eachPriv one (splitPrivs g.privs) d
    d.done rc

/-! ## All of them -/

/-- The statements. -/
inductive DdlStmt (σ : Type) where
  | createTable (ct : CreateTable σ)
  | createIndex (ci : CreateIndex)
  | drop (s : Drop)
  | createView (name selectSql : Bytes) (materialized ifNotExists : Bool)
  | createRoutine (cr : CreateRoutine)
  | alter (table : Bytes) (a : Alter)
  | createTablespace (name : Bytes) (location : Option Bytes) (ifNotExists : Bool)
  | grant (g : Grant)

def DdlStmt.exec : DdlStmt σ → Result σ
  | .createTable ct => execCreateTable E d ct
  | .createIndex ci => execCreateIndex E d ci
  | .drop s => execDrop E d s
  | .createView name selectSql materialized ifNotExists =>
    execCreateView E d name selectSql materialized ifNotExists
  | .createRoutine cr => execCreateRoutine E d cr
  | .alter table a => execAlter E d table a
  | .createTablespace name location ifNotExists => execTablespaceCreate E d name location ifNotExists
  | .grant g => execGrant E d g

end

end Tdb.Ddl
