import TransactionDB.Storage.TableTree
import TransactionDB.Catalog.Codec

/-!
# TransactionDB — the catalog

`src/catalog/tdb_catalog.c`: the records of the catalog B-tree and the objects in memory. Every
operation changes both, the tree by the position of a record and the memory by the name of an
object; nothing else keeps them together.

A record gets the rowid behind the last record of the rightmost leaf. `del_row` deletes the first
record whose first string, read behind the byte for the kind, is the name, whatever its kind is;
of a grant or a comment it reads the kind of the object as the length of the string.
-/

namespace Tdb

open Reader BTree

/-- The objects in memory. -/
@[ext] structure SchemaCache where
  tables : List TableDef
  views : List ViewDef
  routines : List Routine
  tspaces : List Tablespace
  acl : List AclEntry
  deriving DecidableEq, Repr

def SchemaCache.empty : SchemaCache := ⟨[], [], [], [], []⟩

/-- The list with `a` in the place of its first element with the property. -/
def replaceFirst {α : Type} (p : α → Bool) (a : α) : List α → List α
  | [] => []
  | b :: l => if p b then a :: l else b :: replaceFirst p a l

/-- The table at a place of the list is changed in memory. -/
def SchemaCache.setTableAt (m : SchemaCache) (i : Nat) (t : TableDef) : SchemaCache :=
  { m with tables := m.tables.set i t }

/-- The table that `tdb_catalog_find_table` finds is changed in memory. -/
def SchemaCache.setTable (m : SchemaCache) (name : Bytes) (t : TableDef) : SchemaCache :=
  { m with tables := replaceFirst (fun u => sameName u.name name) t m.tables }

/-- `tdb_catalog`. -/
structure Catalog where
  tree : Root
  cache : SchemaCache

/-- A new catalog: `tdb_catalog_open` makes the tree when the file has none. -/
def Catalog.create (ps pgno : Nat) : Catalog := ⟨Root.create ps pgno, SchemaCache.empty⟩

/-! ## Loading -/

/-- The part of `catalog_load` that takes one record. -/
def loadRecord (c : SchemaCache) : Bytes → SchemaCache
  | [] => c
  | code :: body =>
    if code = catTable then
      match deserTable.run body with
      | some (t, _) => { c with tables := c.tables ++ [t] }
      | none => c
    else if code = catView then
      match deserView.run body with
      | some (v, _) => { c with views := c.views ++ [v] }
      | none => c
    else if code = catRoutine then
      match deserRoutine.run body with
      | some (r, _) => { c with routines := c.routines ++ [r] }
      | none => c
    else if code = catGrant then
      match deserGrant.run body with
      | some (e, _) => { c with acl := (aclGrant c.acl e.grantee e.priv e.kind e.object).2 }
      | none => c
    else if code = catTablespace then
      match deserTablespace.run body with
      | some (s, _) => { c with tspaces := c.tspaces ++ [s] }
      | none => c
    else c

/-- `catalog_load`. -/
def catalogLoad (t : Root) : SchemaCache := t.entries.foldl (fun c e => loadRecord c e.2) .empty

/-! ## Records -/

/-- `catalog_put`. -/
def catalogPut (ps : Nat) (t : Root) (r : CatRecord) : Status × Root :=
  t.put ps (t.maxRowid + 1) r.encode

/-- The first string behind the byte for the kind. -/
def recordName (v : Bytes) : Option Bytes := (rStr.run v.tail).bind Prod.fst

/-- The record says it is of this kind and has this name. -/
def namedRecord (code : UInt8) (name : Bytes) (v : Bytes) : Bool :=
  v.head? = some code && (recordName v).any (sameName · name)

/-- The rowid of the first record with the property. -/
def findRecord (t : Root) (p : Bytes → Bool) : Option UInt64 :=
  (t.entries.find? fun e => p e.2).map fun e => keyToRowid e.1

/-- The rowids of all records with the property. -/
def findRecords (t : Root) (p : Bytes → Bool) : List UInt64 :=
  (t.entries.filter fun e => p e.2).map fun e => keyToRowid e.1

/-- Deletes the record, if there is one; the rowid 0 is none. -/
def delRecord (t : Root) : Option UInt64 → Root
  | none => t
  | some rid => if rid = 0 then t else (t.del rid).2

/-- Deletes the records, one after the other. -/
def delRecords (t : Root) (ids : List UInt64) : Root := ids.foldl (fun t id => (t.del id).2) t

/-- `del_row`. -/
def delRow (t : Root) (name : Bytes) : Root :=
  delRecord t (findRecord t fun v => (recordName v).any (sameName · name))

/-- The record is a comment on this object. -/
def commentOn (kind : UInt8) (target : Bytes) (v : Bytes) : Bool :=
  v.head? = some catComment && v.tail.head? = some kind &&
    (recordName v.tail).any (sameName · target)

/-- The filter is there, is not empty and is not the wildcard. -/
def asks (wild : Option Bytes) : Option Bytes → Bool
  | none => false
  | some w => w ≠ [] && !wild.any (sameName w)

/-- `acl_match`. -/
def aclMatch (e : AclEntry) (grantee priv : Option Bytes) (kind : UInt8) (object : Option Bytes) : Bool :=
  if asks (some "PUBLIC".toUTF8.toList) grantee && !(grantee.any fun w => sameName w e.grantee) then false
  else if asks (some "ALL".toUTF8.toList) priv && !(priv.any fun w => sameName w e.priv) then false
  else if kind ≠ 0 && kind ≠ e.kind then false
  else if asks none object && !(object.any fun w => e.object.any (sameName w)) then false
  else true

/-- The record is a grant that the revocation matches. -/
def grantMatch (grantee priv : Option Bytes) (kind : UInt8) (object : Option Bytes) (v : Bytes) :
    Bool :=
  v.head? = some catGrant &&
    match deserGrant.run v.tail with
    | some (e, _) => aclMatch e grantee priv kind object
    | none => false

/-! ## The operations -/

namespace Catalog

variable (ps : Nat) (c : Catalog)

/-- Writes a record, and on success changes the memory. -/
def add (r : CatRecord) (f : SchemaCache → SchemaCache) : Status × Catalog :=
  match catalogPut ps c.tree r with
  | (.ok, tree) => (.ok, ⟨tree, f c.cache⟩)
  | (rc, tree) => (rc, { c with tree })

/-- `tdb_catalog_add_table`. -/
def addTable (t : TableDef) : Status × Catalog :=
  c.add ps (.table t) fun m => { m with tables := m.tables ++ [t] }

/-- `tdb_catalog_add_view`. -/
def addView (v : ViewDef) : Status × Catalog :=
  c.add ps (.view v) fun m => { m with views := m.views ++ [v] }

/-- `tdb_catalog_add_routine`. -/
def addRoutine (r : Routine) : Status × Catalog :=
  c.add ps (.routine r) fun m => { m with routines := m.routines ++ [r] }

/-- `tdb_catalog_acl_persist`. -/
def aclPersist (e : AclEntry) : Status × Catalog := c.add ps (.grant e) id

/-- `tdb_catalog_acl_unpersist`. -/
def aclUnpersist (grantee priv : Option Bytes) (kind : UInt8) (object : Option Bytes) : Catalog :=
  { c with tree := delRecords c.tree (findRecords c.tree (grantMatch grantee priv kind object)) }

def findTable (name : Bytes) : Option TableDef := c.cache.tables.find? fun t => sameName t.name name

def findView (name : Bytes) : Option ViewDef := c.cache.views.find? fun v => sameName v.name name

def findRoutine (name : Bytes) : Option Routine :=
  c.cache.routines.find? fun r => sameName r.name name

/-- `tdb_catalog_update_table_as`. -/
def updateTableAs (name : Bytes) (t : TableDef) : Status × Catalog :=
  match findRecord c.tree (namedRecord catTable name) with
  | none => (.notfound, c)
  | some rid =>
    let (rc, tree) := c.tree.put ps rid (CatRecord.table t).encode
    (rc, { c with tree })

/-- `tdb_catalog_set_comment`; without a body the comment is dropped. -/
def setComment (kind : UInt8) (target : Option Bytes) (body : Option Bytes) : Status × Catalog :=
  match target with
  | none => (.misuse, c)
  | some target =>
    let c := { c with tree := delRecords c.tree (findRecords c.tree (commentOn kind target)) }
    match body with
    | none => (.ok, c)
    | some body => c.add ps (.comment ⟨kind, target, body⟩) id

def tablespaceExists (name : Bytes) : Bool := c.cache.tspaces.any fun s => sameName s.name name

/-- `tdb_catalog_tablespace_create`. -/
def tablespaceCreate (name : Bytes) (location : Option Bytes) (ifNotExists : Bool) :
    Status × Catalog :=
  if name = [] then (.misuse, c)
  else if c.tablespaceExists name then (if ifNotExists then .ok else .error, c)
  else c.add ps (.tablespace ⟨name, location⟩) fun m =>
    { m with tspaces := m.tspaces ++ [⟨name, location⟩] }

/-- `tdb_catalog_tablespace_drop`. -/
def tablespaceDrop (name : Bytes) (ifExists : Bool) : Status × Catalog :=
  if c.tablespaceExists name then
    let tree := delRecord c.tree (findRecord c.tree (namedRecord catTablespace name))
    (.ok, ⟨tree, { c.cache with tspaces := c.cache.tspaces.eraseP fun s => sameName s.name name }⟩)
  else (if ifExists then .ok else .error, c)

/-- `tdb_catalog_drop_table`. -/
def dropTable (name : Bytes) : Catalog :=
  ⟨delRow c.tree name,
    { c.cache with tables := c.cache.tables.eraseP fun t => sameName t.name name }⟩

/-- `tdb_catalog_drop_view`. -/
def dropView (name : Bytes) : Catalog :=
  ⟨delRow c.tree name, { c.cache with views := c.cache.views.eraseP fun v => sameName v.name name }⟩

/-- `tdb_catalog_drop_routine`. -/
def dropRoutine (name : Bytes) : Catalog :=
  ⟨delRow c.tree name,
    { c.cache with routines := c.cache.routines.eraseP fun r => sameName r.name name }⟩

end Catalog

end Tdb
