import TransactionDB.Lib.Reader
import TransactionDB.Catalog.Acl
import TransactionDB.Catalog.Schema

/-!
# TransactionDB — catalog records

The serialisation of `src/catalog/tdb_catalog.c`, and of an entry of the access-control list in
`src/catalog/tdb_acl.c`. A record is one byte for its kind, then the fields of the object. A
string is its length plus one and its bytes, and a missing one the length 0.

An `int` is written as the 64-bit number it converts to and read back by cutting it; a count or a
place is a `Nat` here, and an optional place is written plus one. The source reads on after an
error, with zeros, and drops the object at the end; here the reader stops. A number that no
enumerator has is read as the last one.

* `reads_deserTable` and its like for the other objects: a record is read back as it was written.
* `table_round_trip`: so is a table in a record that ends before the trailer, with defaults in its place.
-/

namespace Tdb

open Reader List

/-! ## Fields -/

def wVar (v : UInt64) : Bytes := putVarint v

/-- `w_str`. -/
def wStr : Option Bytes → Bytes
  | none => wVar 0
  | some s => wVar (UInt64.ofNat (s.length + 1)) ++ s

/-- A `Nat` that the source has in an `int`. -/
def wNat (n : Nat) : Bytes := wVar (UInt64.ofNat n)

/-- An `int` that is -1 for nothing, written plus one. -/
def wOpt (o : Option Nat) : Bytes := wNat (o.elim 0 (· + 1))

/-- `(uint64_t)` of an `int`. -/
def wInt (n : Int32) : Bytes := wVar n.toInt64.toUInt64

def wBool (b : Bool) : Bytes := [b.toUInt8]

/-- `r_var`. -/
def rVar : Reader UInt8 UInt64 := fun s => (getVarint s s.length).map fun r => (r.1, s.drop r.2)

/-- `r_u8`. -/
def rU8 : Reader UInt8 UInt8 := next

/-- `r_u32`. -/
def rU32 : Reader UInt8 UInt32 := (getU32 · 0) <$> takeN 4

/-- `(int)r_var(r)`. -/
def rInt : Reader UInt8 Int32 := (fun v => v.toInt64.toInt32) <$> rVar

/-- A count: a loop up to a negative number does nothing. -/
def rNat : Reader UInt8 Nat := Int32.toNatClampNeg <$> rInt

def rOpt : Reader UInt8 (Option Nat) := (fun n => if n = 0 then none else some (n - 1)) <$> rNat

def rBool : Reader UInt8 Bool := (· != 0) <$> rU8

/-- `r_str`. A length that is negative as an `int` is an error here. -/
def rStr : Reader UInt8 (Option Bytes) := do
  let l ← rVar
  if l = 0 then pure none
  else
    let n := (l - 1).toInt64.toInt32
    if n < 0 then failure else some <$> takeN n.toNatClampNeg

/-- An enumerator, by its number. -/
def rEnum {α : Type} (ofNat : Nat → α) : Reader UInt8 α := (fun b => ofNat b.toNat) <$> rU8

/-! ## Objects -/

/-- The flags of a column. -/
def Column.flags (c : Column) : UInt8 :=
  (if c.notnull then 1 else 0) ||| (if c.pk then 2 else 0) ||| (if c.unique then 4 else 0) |||
    (if c.hidden then 8 else 0)

def serColumn (c : Column) : Bytes :=
  wStr c.name ++ [UInt8.ofNat c.type.id.ctorIdx] ++ wInt c.type.length ++ wInt c.type.precision ++
    wInt c.type.scale ++ [UInt8.ofNat c.coll.ctorIdx] ++ [c.flags] ++
    [UInt8.ofNat c.generated.ctorIdx] ++ wStr c.defaultSql ++ wStr c.checkSql ++
    wStr c.generatedSql ++ wStr c.luaCompute

def serIndexCol (c : Nat × Bool) : Bytes := wNat c.1 ++ wBool c.2

def serIndex (ix : Index) : Bytes :=
  wStr ix.name ++ putU32 ix.root ++ wBool ix.unique ++ [UInt8.ofNat ix.kind.ctorIdx] ++
    wNat ix.cols.length ++ ix.cols.flatMap serIndexCol

/-- The part of the record that older catalogs do not have. -/
def serTrailer (t : TableDef) : Bytes :=
  wStr t.tablespace ++ wStr t.compression ++ [UInt8.ofNat t.partitionKind.ctorIdx] ++
    wNat t.partitionCols.length ++ t.partitionCols.flatMap (fun s => wStr (some s)) ++
    wNat t.partitionCount

/-- `ser_table`, behind the byte for the kind. -/
def serTable (t : TableDef) : Bytes :=
  wStr t.name ++ putU32 t.root ++ putU32 t.historyRoot ++ putU32 t.schemaVersion ++
    [UInt8.ofNat t.versioning.ctorIdx] ++ wOpt t.rowStartCol ++ wOpt t.rowEndCol ++
    wStr t.checkSql ++ wStr t.beforeInsertLua ++ wStr t.beforeUpdateLua ++ wStr t.beforeDeleteLua ++
    wNat t.cols.length ++ t.cols.flatMap serColumn ++
    wNat t.indexes.length ++ t.indexes.flatMap serIndex ++
    wBool t.columnar ++ wNat t.colRoots.length ++ t.colRoots.flatMap putU32 ++ serTrailer t

def deserColumn : Reader UInt8 Column := do
  let name ← rStr
  let id ← rEnum TypeId.ofNat
  let length ← rInt
  let precision ← rInt
  let scale ← rInt
  let coll ← rEnum Collation.ofNat
  let flags ← rU8
  let generated ← rEnum GeneratedKind.ofNat
  let defaultSql ← rStr
  let checkSql ← rStr
  let generatedSql ← rStr
  let luaCompute ← rStr
  pure
    { name := name.getD []
      type := ⟨id, length, precision, scale⟩
      coll
      notnull := flags &&& 1 != 0
      pk := flags &&& 2 != 0
      unique := flags &&& 4 != 0
      hidden := flags &&& 8 != 0
      defaultSql, checkSql, generated, generatedSql, luaCompute }

def deserIndexCol : Reader UInt8 (Nat × Bool) := do
  let col ← rNat
  let desc ← rBool
  pure (col, desc)

def deserIndex : Reader UInt8 Index := do
  let name ← rStr
  let root ← rU32
  let unique ← rBool
  let kind ← rEnum IndexKind.ofNat
  let ncol ← rNat
  let cols ← times deserIndexCol ncol
  pure { name := name.getD [], root, unique, kind, cols }

/-- The trailer, put into the table read so far. -/
def deserTrailer (t : TableDef) : Reader UInt8 TableDef := do
  let tablespace ← rStr
  let compression ← rStr
  let partitionKind ← rEnum PartitionKind.ofNat
  let npart ← rNat
  let partitionCols ← times ((·.getD []) <$> rStr) npart
  let partitionCount ← orAtEnd 0 rNat
  pure { t with tablespace, compression, partitionKind, partitionCols, partitionCount }

/-- `deser_table`. -/
def deserTable : Reader UInt8 TableDef := do
  let name ← rStr
  let root ← rU32
  let historyRoot ← rU32
  let schemaVersion ← rU32
  let versioning ← rEnum Versioning.ofNat
  let rowStartCol ← rOpt
  let rowEndCol ← rOpt
  let checkSql ← rStr
  let beforeInsertLua ← rStr
  let beforeUpdateLua ← rStr
  let beforeDeleteLua ← rStr
  let ncol ← rNat
  let cols ← times deserColumn ncol
  let nindex ← rNat
  let indexes ← times deserIndex nindex
  let columnar ← rBool
  let nroot ← rNat
  let colRoots ← times rU32 nroot
  let t := { TableDef.new (name.getD []) with
    root, historyRoot, schemaVersion, versioning, rowStartCol, rowEndCol, checkSql,
    beforeInsertLua, beforeUpdateLua, beforeDeleteLua, cols, indexes, columnar, colRoots }
  orAtEnd t (deserTrailer t)

/-- `ser_view`, behind the byte for the kind. -/
def serView (v : ViewDef) : Bytes :=
  wStr v.name ++ wStr v.selectSql ++ wBool v.materialized ++ putU32 v.root

def deserView : Reader UInt8 ViewDef := do
  let name ← rStr
  let selectSql ← rStr
  let materialized ← rBool
  let root ← rU32
  pure { name := name.getD [], selectSql := selectSql.getD [], materialized, root }

/-- `ser_routine`, behind the byte for the kind. -/
def serRoutine (r : Routine) : Bytes :=
  wStr r.name ++ wStr r.luaSrc ++ wBool r.isFunction ++ wOpt r.nargs

def deserRoutine : Reader UInt8 Routine := do
  let name ← rStr
  let luaSrc ← rStr
  let isFunction ← rBool
  let nargs ← rOpt
  pure { name := name.getD [], luaSrc := luaSrc.getD [], isFunction, nargs }

/-- `tdb_tablespace`. -/
structure Tablespace where
  name : Bytes
  location : Option Bytes
  deriving DecidableEq, Repr

def serTablespace (s : Tablespace) : Bytes := wStr s.name ++ wStr s.location

/-- The two strings of a tablespace record. -/
def deserTablespace : Reader UInt8 Tablespace := do
  let name ← rStr
  let location ← rStr
  match name with
  | none => failure
  | some name => pure { name, location }

/-- `tdb_acl_entry_serialize`, behind the byte for the kind of record. -/
def serGrant (e : AclEntry) : Bytes :=
  [e.kind] ++ wStr e.grantee ++ wStr e.priv ++ wStr e.object

/-- `tdb_acl_entry_deserialize`; an entry without grantee or privilege is not granted. -/
def deserGrant : Reader UInt8 AclEntry := do
  let kind ← rU8
  let grantee ← orAtEnd none rStr
  let priv ← orAtEnd none rStr
  let object ← orAtEnd none rStr
  match grantee, priv with
  | some grantee, some priv => pure { grantee, priv, kind, object }
  | _, _ => failure

/-- A comment: on a table (1), a column (2), an index (3), a view (4) or the database (5). -/
structure Comment where
  kind : UInt8
  target : Bytes
  body : Bytes
  deriving DecidableEq, Repr

/-- `ser_comment`, behind the byte for the kind of record. -/
def serComment (c : Comment) : Bytes := [c.kind] ++ wStr c.target ++ wStr c.body

/-! ## Records -/

/-- A record of the catalog. -/
inductive CatRecord where
  | table (t : TableDef)
  | view (v : ViewDef)
  | routine (r : Routine)
  | grant (e : AclEntry)
  | comment (c : Comment)
  | tablespace (s : Tablespace)
  deriving DecidableEq, Repr

/-- `CAT_TABLE` and the other kinds of record. -/
def catTable : UInt8 := 'T'.toUInt8
def catView : UInt8 := 'V'.toUInt8
def catRoutine : UInt8 := 'R'.toUInt8
def catGrant : UInt8 := 'G'.toUInt8
def catComment : UInt8 := 'C'.toUInt8
def catTablespace : UInt8 := 'S'.toUInt8

def CatRecord.code : CatRecord → UInt8
  | .table _ => catTable
  | .view _ => catView
  | .routine _ => catRoutine
  | .grant _ => catGrant
  | .comment _ => catComment
  | .tablespace _ => catTablespace

/-- What stands behind the byte for the kind. -/
def CatRecord.body : CatRecord → Bytes
  | .table t => serTable t
  | .view v => serView v
  | .routine r => serRoutine r
  | .grant e => serGrant e
  | .comment c => serComment c
  | .tablespace s => serTablespace s

def CatRecord.encode (r : CatRecord) : Bytes := r.code :: r.body

/-! ## Reading back -/

/-- The length of a string fits into an `int`. -/
def StrFits (s : Option Bytes) : Prop := ∀ b ∈ s, b.length < 2 ^ 31

instance (s : Option Bytes) : Decidable (StrFits s) := inferInstanceAs (Decidable (∀ b ∈ s, _))

/-- A number that fits into an `int`. -/
def IntFits (n : Nat) : Prop := n < 2 ^ 31

instance (n : Nat) : Decidable (IntFits n) := inferInstanceAs (Decidable (_ < _))

/-- A place that fits into an `int` plus one. -/
def OptFits (o : Option Nat) : Prop := IntFits (o.elim 0 (· + 1))

instance (o : Option Nat) : Decidable (OptFits o) := inferInstanceAs (Decidable (IntFits _))

theorem wVar_ne_nil (v : UInt64) : wVar v ≠ [] :=
  ne_nil_of_length_pos (Varint.length_put_pos 9 v.toNat)

theorem wStr_ne_nil (s : Option Bytes) : wStr s ≠ [] := by
  cases s with
  | none => exact wVar_ne_nil 0
  | some s => exact append_ne_nil_of_left_ne_nil (wVar_ne_nil _) s

theorem reads_rVar (v : UInt64) : Reads rVar (wVar v) v := by
  intro rest
  show (getVarint (putVarint v ++ rest) (putVarint v ++ rest).length).map
    (fun r => (r.1, (putVarint v ++ rest).drop r.2)) = _
  rw [getVarint_putVarint v rest (by simp), Option.map_some, drop_left]

theorem toNatClampNeg_ofNat {n : Nat} (h : n < 2 ^ 31) :
    (UInt64.ofNat n).toInt64.toInt32.toNatClampNeg = n := by
  simp only [UInt64.toInt64_ofNat', Int64.toInt32_ofNat']
  exact Int32.toNatClampNeg_ofNat_of_lt h

theorem reads_rInt (n : Int32) : Reads rInt (wInt n) n := by
  have hread := (reads_rVar n.toInt64.toUInt64).map (fun v => v.toInt64.toInt32)
  rwa [Int64.toInt64_toUInt64, Int32.toInt32_toInt64] at hread

theorem reads_rNat {n : Nat} (h : IntFits n) : Reads rNat (wNat n) n := by
  have hread := ((reads_rVar (UInt64.ofNat n)).map (fun v => v.toInt64.toInt32)).map Int32.toNatClampNeg
  rwa [toNatClampNeg_ofNat h] at hread

theorem reads_rOpt {o : Option Nat} (h : OptFits o) : Reads rOpt (wOpt o) o := by
  have hread := (reads_rNat h).map (fun n => if n = 0 then none else some (n - 1))
  cases o <;> exact hread

theorem reads_rU8 (b : UInt8) : Reads rU8 [b] b := reads_next b

theorem reads_rBool (b : Bool) : Reads rBool (wBool b) b := by
  have hread := (reads_rU8 b.toUInt8).map (· != 0)
  cases b <;> exact hread

theorem reads_rU32 (v : UInt32) : Reads rU32 (putU32 v) v := by
  have hread := (reads_takeN (putU32 v)).map (getU32 · 0)
  rwa [length_putU32, getU32_putU32] at hread

theorem reads_rStr {s : Option Bytes} (h : StrFits s) : Reads rStr (wStr s) s := by
  cases s with
  | none => exact (reads_rVar 0).bind_pure rfl
  | some s =>
    have hlen : s.length < 2 ^ 31 := h s rfl
    have hne : UInt64.ofNat (s.length + 1) ≠ 0 := by
      intro h0
      have := congrArg UInt64.toNat h0
      rw [UInt64.toNat_ofNat', Nat.mod_eq_of_lt (by omega)] at this
      simp at this
    have hsub : UInt64.ofNat (s.length + 1) - 1 = UInt64.ofNat s.length := by
      rw [UInt64.ofNat_add]
      exact UInt64.add_sub_cancel _ 1
    refine (reads_rVar _).bind ?_
    have hn : ¬ (UInt64.ofNat s.length).toInt64.toInt32 < 0 := by
      simp only [UInt64.toInt64_ofNat', Int64.toInt32_ofNat']
      rw [Int32.lt_iff_toInt_lt, Int32.toInt_ofNat_of_lt hlen]
      simp
    rw [if_neg hne, hsub]
    simp only [if_neg hn, toNatClampNeg_ofNat hlen]
    exact (reads_takeN s).map some

theorem reads_rEnum {α : Type} {ofNat : Nat → α} {idx : Nat} {a : α} (hidx : idx < 256)
    (h : ofNat idx = a) : Reads (rEnum ofNat) [UInt8.ofNat idx] a := by
  have hread := (reads_rU8 (UInt8.ofNat idx)).map (fun b => ofNat b.toNat)
  rwa [UInt8.toNat_ofNat', Nat.mod_eq_of_lt hidx, h] at hread

/-! ## The objects that fit -/

def Column.Fits (c : Column) : Prop :=
  ∀ s ∈ [some c.name, c.defaultSql, c.checkSql, c.generatedSql, c.luaCompute], StrFits s

def Index.Fits (ix : Index) : Prop :=
  StrFits ix.name ∧ IntFits ix.cols.length ∧ ∀ c ∈ ix.cols, IntFits c.1

/-- The strings of a table outside its columns and indexes. -/
def TableDef.strings (t : TableDef) : List (Option Bytes) :=
  [some t.name, t.checkSql, t.beforeInsertLua, t.beforeUpdateLua, t.beforeDeleteLua, t.tablespace,
    t.compression]

/-- The counts of a table. -/
def TableDef.counts (t : TableDef) : List Nat :=
  [t.cols.length, t.indexes.length, t.colRoots.length, t.partitionCols.length, t.partitionCount]

/-- Everything in the table has a size that the record can hold. -/
def TableDef.Fits (t : TableDef) : Prop :=
  (∀ s ∈ t.strings, StrFits s) ∧ (∀ n ∈ t.counts, IntFits n) ∧ OptFits t.rowStartCol ∧
    OptFits t.rowEndCol ∧ (∀ c ∈ t.cols, c.Fits) ∧ (∀ ix ∈ t.indexes, ix.Fits) ∧
    ∀ s ∈ t.partitionCols, StrFits (some s)

def CatRecord.Fits : CatRecord → Prop
  | .table t => t.Fits
  | .view v => StrFits v.name ∧ StrFits v.selectSql
  | .routine r => StrFits r.name ∧ StrFits r.luaSrc ∧ OptFits r.nargs
  | .grant e => StrFits e.grantee ∧ StrFits e.priv ∧ StrFits e.object
  | .comment c => StrFits c.target ∧ StrFits c.body
  | .tablespace s => StrFits s.name ∧ StrFits s.location

instance (c : Column) : Decidable c.Fits := inferInstanceAs (Decidable (∀ _ ∈ _, _))
instance (ix : Index) : Decidable ix.Fits := inferInstanceAs (Decidable (_ ∧ _))
instance (t : TableDef) : Decidable t.Fits := inferInstanceAs (Decidable (_ ∧ _))
instance : (r : CatRecord) → Decidable r.Fits
  | .table t => inferInstanceAs (Decidable t.Fits)
  | .view _ | .routine _ | .grant _ | .comment _ | .tablespace _ => inferInstanceAs (Decidable (_ ∧ _))

/-! ## The objects read back -/

theorem Column.flags_bits (c : Column) :
    (c.flags &&& 1 != 0) = c.notnull ∧ (c.flags &&& 2 != 0) = c.pk ∧
      (c.flags &&& 4 != 0) = c.unique ∧ (c.flags &&& 8 != 0) = c.hidden := by
  simp only [Column.flags]
  cases c.notnull <;> cases c.pk <;> cases c.unique <;> cases c.hidden <;> decide

theorem reads_deserColumn {c : Column} (h : c.Fits) : Reads deserColumn (serColumn c) c := by
  have hid : c.type.id.ctorIdx < 256 := by cases c.type.id <;> decide
  have hcoll : c.coll.ctorIdx < 256 := by cases c.coll <;> decide
  have hgen : c.generated.ctorIdx < 256 := by cases c.generated <;> decide
  obtain ⟨h1, h2, h3, h4⟩ := c.flags_bits
  simp only [serColumn, append_assoc]
  refine (reads_rStr (h _ (by simp))).bind ?_
  refine (reads_rEnum hid (TypeId.ofNat_ctorIdx _)).bind ?_
  refine (reads_rInt _).bind ((reads_rInt _).bind ((reads_rInt _).bind ?_))
  refine (reads_rEnum hcoll (Collation.ofNat_ctorIdx _)).bind ((reads_rU8 _).bind ?_)
  refine (reads_rEnum hgen (GeneratedKind.ofNat_ctorIdx _)).bind ?_
  refine (reads_rStr (h _ (by simp))).bind ((reads_rStr (h _ (by simp))).bind ?_)
  refine (reads_rStr (h _ (by simp))).bind ((reads_rStr (h _ (by simp))).bind_pure ?_)
  rw [h1, h2, h3, h4]
  rfl

theorem reads_deserIndex {ix : Index} (h : ix.Fits) : Reads deserIndex (serIndex ix) ix := by
  have hkind : ix.kind.ctorIdx < 256 := by cases ix.kind <;> decide
  have hcols : Reads (times deserIndexCol ix.cols.length) (ix.cols.flatMap serIndexCol) ix.cols :=
    reads_times fun c hc => (reads_rNat (h.2.2 c hc)).bind ((reads_rBool c.2).bind_pure rfl)
  simp only [serIndex, append_assoc]
  refine (reads_rStr h.1).bind ((reads_rU32 _).bind ((reads_rBool _).bind ?_))
  refine (reads_rEnum hkind (IndexKind.ofNat_ctorIdx _)).bind ((reads_rNat h.2.1).bind ?_)
  exact hcols.bind_pure rfl

theorem reads_deserTrailer {t u : TableDef} (h : t.Fits)
    (hu : { u with
      tablespace := t.tablespace, compression := t.compression, partitionKind := t.partitionKind
      partitionCols := t.partitionCols, partitionCount := t.partitionCount } = t) :
    Reads (deserTrailer u) (serTrailer t) t := by
  obtain ⟨hstr, hcount, -, -, -, -, hpart⟩ := h
  have hkind : t.partitionKind.ctorIdx < 256 := by cases t.partitionKind <;> decide
  have hcols : Reads (times ((·.getD []) <$> rStr) t.partitionCols.length)
      (t.partitionCols.flatMap fun s => wStr (some s)) t.partitionCols :=
    reads_times fun s hs => (reads_rStr (hpart s hs)).map (·.getD [])
  simp only [serTrailer, append_assoc]
  refine (reads_rStr (hstr _ (by simp [TableDef.strings]))).bind ?_
  refine (reads_rStr (hstr _ (by simp [TableDef.strings]))).bind ?_
  refine (reads_rEnum hkind (PartitionKind.ofNat_ctorIdx _)).bind ?_
  refine (reads_rNat (hcount _ (by simp [TableDef.counts]))).bind (hcols.bind ?_)
  have hlast := (reads_rNat (hcount t.partitionCount (by simp [TableDef.counts]))).orAtEnd 0
    (wVar_ne_nil _)
  exact hlast.bind_pure (by rw [hu])

/-- The table without what stands in the trailer. -/
def TableDef.old (t : TableDef) : TableDef :=
  { t with tablespace := none, compression := none, partitionKind := .none, partitionCols := [], partitionCount := 0 }

/-- The record as older catalogs have it, which ends before the trailer. -/
def serOld (t : TableDef) : Bytes := (serTable t).take ((serTable t).length - (serTrailer t).length)

/-- What is left of two lists without the second. -/
theorem take_front (a b : Bytes) : (a ++ b).take ((a ++ b).length - b.length) = a := by simp

/-- The fields in front of the trailer, with anything behind them. -/
theorem deserTable_old {t : TableDef} (h : t.Fits) (rest : Bytes) :
    deserTable.run (serOld t ++ rest) = (orAtEnd t.old (deserTrailer t.old)).run rest := by
  obtain ⟨hstr, hcount, hstart, hend, hcol, hindex, -⟩ := h
  have hver : t.versioning.ctorIdx < 256 := by cases t.versioning <;> decide
  have hfront : serOld t = _ := take_front _ (serTrailer t)
  rw [hfront]
  simp only [append_assoc]
  refine (reads_rStr (hstr _ (by simp [TableDef.strings]))).run_bind ?_
  refine (reads_rU32 _).run_bind ?_
  refine (reads_rU32 _).run_bind ?_
  refine (reads_rU32 _).run_bind ?_
  refine (reads_rEnum hver (Versioning.ofNat_ctorIdx _)).run_bind ?_
  refine (reads_rOpt hstart).run_bind ?_
  refine (reads_rOpt hend).run_bind ?_
  refine (reads_rStr (hstr _ (by simp [TableDef.strings]))).run_bind ?_
  refine (reads_rStr (hstr _ (by simp [TableDef.strings]))).run_bind ?_
  refine (reads_rStr (hstr _ (by simp [TableDef.strings]))).run_bind ?_
  refine (reads_rStr (hstr _ (by simp [TableDef.strings]))).run_bind ?_
  refine (reads_rNat (hcount _ (by simp [TableDef.counts]))).run_bind ?_
  refine (reads_times fun c hc => reads_deserColumn (hcol c hc)).run_bind ?_
  refine (reads_rNat (hcount _ (by simp [TableDef.counts]))).run_bind ?_
  refine (reads_times fun ix hix => reads_deserIndex (hindex ix hix)).run_bind ?_
  refine (reads_rBool _).run_bind ?_
  refine (reads_rNat (hcount _ (by simp [TableDef.counts]))).run_bind ?_
  exact (reads_times fun r _ => reads_rU32 r).run_bind rfl

theorem serTable_eq (t : TableDef) : serTable t = serOld t ++ serTrailer t := by
  have hfront : serOld t = _ := take_front _ (serTrailer t)
  rw [hfront]
  rfl

theorem serTable_front (t : TableDef) : ∃ rest, serTable t = wStr t.name ++ rest := by
  have hfront : serOld t = _ := take_front _ (serTrailer t)
  rw [serTable_eq, hfront]
  simp only [append_assoc]
  exact ⟨_, rfl⟩

theorem reads_deserTable {t : TableDef} (h : t.Fits) : Reads deserTable (serTable t) t := by
  intro rest
  have hne : serTrailer t ≠ [] := by
    simp only [serTrailer, append_assoc]
    exact append_ne_nil_of_left_ne_nil (wStr_ne_nil _) _
  rw [serTable_eq, append_assoc, deserTable_old h]
  exact (reads_deserTrailer h rfl).orAtEnd _ hne rest

/-- A table is read back as it was written, to the end of the record; one written before there was a trailer
has the defaults in its place. -/
theorem table_round_trip {t : TableDef} (h : t.Fits) :
    deserTable.run (serTable t) = some (t, []) ∧ deserTable.run (serOld t) = some (t.old, []) := by
  have hall := reads_deserTable h []
  have hold := deserTable_old h []
  rw [append_nil] at hall hold
  exact ⟨hall, hold⟩

/-- A versioned table with an index and a partition. -/
def sampleTable : TableDef :=
  { TableDef.new [116] with
    cols := [⟨[97], ⟨.integer, -1, 0, 0⟩, .binary, true, true, false, true, some [], none, .none, none, some [120]⟩]
    indexes := [⟨[105], 7, true, .btree, [(0, true)]⟩]
    rowStartCol := some 0, colRoots := [3, 4], columnar := true, checkSql := some []
    tablespace := some [115], partitionCols := [[97], []], partitionCount := 2 }

theorem table_round_trip_sample : sampleTable.Fits ∧
    deserTable.run (serTable sampleTable) = some (sampleTable, []) ∧
      deserTable.run (serOld sampleTable) = some (sampleTable.old, []) :=
  ⟨by decide, table_round_trip (by decide)⟩

theorem reads_deserView {v : ViewDef} (h : (CatRecord.view v).Fits) :
    Reads deserView (serView v) v := by
  simp only [serView, append_assoc]
  exact (reads_rStr h.1).bind ((reads_rStr h.2).bind
    ((reads_rBool _).bind ((reads_rU32 _).bind_pure rfl)))

theorem reads_deserRoutine {r : Routine} (h : (CatRecord.routine r).Fits) :
    Reads deserRoutine (serRoutine r) r := by
  simp only [serRoutine, append_assoc]
  exact (reads_rStr h.1).bind ((reads_rStr h.2.1).bind
    ((reads_rBool _).bind ((reads_rOpt h.2.2).bind_pure rfl)))

theorem reads_deserTablespace {s : Tablespace} (h : (CatRecord.tablespace s).Fits) :
    Reads deserTablespace (serTablespace s) s :=
  (reads_rStr h.1).bind ((reads_rStr h.2).bind_pure rfl)

theorem reads_deserGrant {e : AclEntry} (h : (CatRecord.grant e).Fits) :
    Reads deserGrant (serGrant e) e := by
  simp only [serGrant, append_assoc]
  exact (reads_rU8 _).bind (((reads_rStr h.1).orAtEnd none (wStr_ne_nil _)).bind
    (((reads_rStr h.2.1).orAtEnd none (wStr_ne_nil _)).bind
      (((reads_rStr h.2.2).orAtEnd none (wStr_ne_nil _)).bind_pure rfl)))

end Tdb
