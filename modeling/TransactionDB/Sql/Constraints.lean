import TransactionDB.Engine.Chains
import TransactionDB.Sql.StatementCalls

/-!
# TransactionDB — the constraints of a table and its stored rows

`RowSound` is what a table declares of its rows: NOT NULL, CHECK, and that a generated column holds
the value of its expression. `VersionsSound` says it of every stored version, so of every row that
any transaction sees. Statements that store rows keep it under the conditions of `TableOk`, and
`ALTER TABLE ADD COLUMN` keeps it when the new column demands nothing that the stored rows do not
give; otherwise the rows that are there already do not satisfy the new column.

* `finalizeRow_sound`: a finished row is sound, if each generated column only names columns before
  it.
* `Change.keeps`: one statement; `changes_sound`: all of them.
-/

namespace Tdb.Exec

open List

variable {row : Row} {t' : TableDef}

/-! ## Declared constraints -/

/-- What a table declares of a row. -/
structure RowSound (env : SqlEnv) (t : TableDef) (row : Row) : Prop where
  notNull : ∀ i col, t.cols[i]? = some col → col.notnull = true → cellAt row i ≠ .null
  check : ∀ c ∈ t.checks, ∃ e, prepareColExpr env t c.2 = .ok e ∧ checkHolds (e.eval row) = true
  generated : ∀ i col sql, t.cols[i]? = some col → col.generator = some sql →
    ∃ e, prepareColExpr env t sql = .ok e ∧
      typespecCoerce env.lib col.type (e.eval row) = .ok (cellAt row i)

/-- Each generated column only names columns before it. -/
def GeneratesForward (env : SqlEnv) (t : TableDef) : Prop :=
  ∀ i col sql e, t.cols[i]? = some col → col.generator = some sql →
    prepareColExpr env t sql = .ok e → ∀ k ∈ e.cols, k < i

section Sound

variable {env : SqlEnv} {t : TableDef}

/-- A finished row is sound: what a generated column saw is what is stored. -/
theorem finalizeRow_sound {full : Row} (hlen : row.length = t.cols.length)
    (hgen : GeneratesForward env t) (h : finalizeRow env t row = .ok full) : RowSound env t full := by
  obtain ⟨hlen', hcols, hchecks⟩ := finalizeRow_ok hlen h
  refine ⟨fun i col hi hn => ?_, hchecks, fun i col sql hi hsql => ?_⟩
  · obtain ⟨v, -, -, hnull⟩ := hcols i col hi
    exact hnull hn
  · obtain ⟨v, hv, hcoerce, -⟩ := hcols i col hi
    unfold columnInput at hv
    rw [hsql] at hv
    dsimp only at hv
    split at hv
    · cases hv
    · rename_i e he
      cases hv
      refine ⟨e, he, ?_⟩
      have hsame : e.eval (midRow row full i) = e.eval full := by
        refine BoundExpr.eval_congr fun k hk => ?_
        rw [cellAt_midRow hlen', if_pos (hgen i col sql e hi hsql he k hk)]
      rw [← hsame]
      exact hcoerce

/-- Constraints only look at the cells. -/
theorem RowSound.congr {row' : Row} (h : RowSound env t row)
    (hcells : ∀ i, cellAt row' i = cellAt row i) : RowSound env t row' := by
  have heval : ∀ e : BoundExpr, e.eval row' = e.eval row :=
    fun e => BoundExpr.eval_congr fun k _ => hcells k
  refine ⟨fun i col hi hn => ?_, fun c hc => ?_, fun i col sql hi hsql => ?_⟩
  · rw [hcells]
    exact h.notNull i col hi hn
  · obtain ⟨e, he, hholds⟩ := h.check c hc
    exact ⟨e, he, by rw [heval]; exact hholds⟩
  · obtain ⟨e, he, hcoerce⟩ := h.generated i col sql hi hsql
    exact ⟨e, he, by rw [heval, hcells]; exact hcoerce⟩

section

variable {t : TableDef} (h : ∀ name i, t.findColumn name = some i → t'.findColumn name = some i)

include h

/-- Names are looked up among the names of the columns. -/
theorem resolveNames_congr : ∀ {names : List Bytes} {is : List Nat},
    resolveNames t names = .ok is → resolveNames t' names = .ok is := by
  intro names
  induction names with
  | nil => exact fun h => h
  | cons name names ih =>
    intro is hres
    rw [resolveNames] at hres ⊢
    split at hres
    · cases hres
    · rename_i i hi
      rw [h name i hi]
      dsimp only
      split at hres
      · cases hres
      · rename_i rest hrest
        rw [ih hrest]
        exact hres

theorem prepareColExpr_congr {sql : Bytes} {e : BoundExpr} (he : prepareColExpr env t sql = .ok e) :
    prepareColExpr env t' sql = .ok e := by
  unfold prepareColExpr at he ⊢
  split at he
  · cases he
  · split at he
    · cases he
    · rename_i is his
      rw [resolveNames_congr h his]
      exact he

end

/-- The constraints of `t'` are among those of `t`. -/
structure Covers (t t' : TableDef) : Prop where
  names : t'.cols.map Column.name = t.cols.map Column.name
  notNull : ∀ (i : Nat) (col' : Column), t'.cols[i]? = some col' → col'.notnull = true →
    ∃ col : Column, t.cols[i]? = some col ∧ col.notnull = true
  checks : ∀ c' ∈ t'.checks, ∃ c ∈ t.checks, c.2 = c'.2
  generated : ∀ (i : Nat) (col' : Column) (sql : Bytes), t'.cols[i]? = some col' →
    col'.generator = some sql → ∃ col : Column, t.cols[i]? = some col ∧ col.generator = some sql ∧ col.type = col'.type

theorem Covers.refl (t : TableDef) : Covers t t :=
  ⟨rfl, fun _ col hi hn => ⟨col, hi, hn⟩, fun c hc => ⟨c, hc, rfl⟩,
    fun _ col _ hi hsql => ⟨col, hi, hsql, rfl⟩⟩

theorem findColumn_eq (t : TableDef) (name : Bytes) :
    t.findColumn name = (t.cols.map Column.name).findIdx? fun n => sameName n name := by
  unfold TableDef.findColumn
  rw [findIdx?_map]
  rfl

theorem Covers.sound (hc : Covers t t') (h : RowSound env t row) :
    RowSound env t' row := by
  have hprep : ∀ {sql : Bytes} {e : BoundExpr}, prepareColExpr env t sql = .ok e →
      prepareColExpr env t' sql = .ok e := by
    refine fun he => prepareColExpr_congr (fun name i hi => ?_) he
    rw [findColumn_eq, hc.names, ← findColumn_eq]
    exact hi
  refine ⟨fun i col' hi hn => ?_, fun c' hc' => ?_, fun i col' sql hi hsql => ?_⟩
  · obtain ⟨col, hcol, hn⟩ := hc.notNull i col' hi hn
    exact h.notNull i col hcol hn
  · obtain ⟨c, hmem, hsql⟩ := hc.checks c' hc'
    obtain ⟨e, he, hholds⟩ := h.check c hmem
    exact ⟨e, hprep (hsql ▸ he), hholds⟩
  · obtain ⟨col, hcol, hgen, htype⟩ := hc.generated i col' sql hi hsql
    obtain ⟨e, he, hcoerce⟩ := h.generated i col sql hcol hgen
    exact ⟨e, hprep he, htype ▸ hcoerce⟩

/-- What a new column demands of a row that does not have it. -/
structure AddSound (env : SqlEnv) (t : TableDef) (col : Column) (row : Row) : Prop where
  nullable : col.notnull = false
  plain : col.generator = none
  check : ∀ sql, col.checkSql = some sql →
    ∃ e, prepareColExpr env (t.addColumn col) sql = .ok e ∧ checkHolds (e.eval row) = true

theorem mem_checks_addColumn {col : Column} {c : Option Bytes × Bytes} (h : c ∈ (t.addColumn col).checks) :
    c ∈ t.checks ∨ col.checkSql = some c.2 := by
  unfold TableDef.checks TableDef.addColumn at h
  unfold TableDef.checks
  rw [filterMap_append, mem_append, mem_append] at h
  rcases h with (h | h) | h
  · exact Or.inl (mem_append_left _ h)
  · simp only [filterMap_cons, filterMap_nil] at h
    cases hsql : col.checkSql with
    | none => simp [hsql] at h
    | some sql =>
      simp only [hsql, Option.map_some, mem_singleton] at h
      rw [h]
      exact Or.inr rfl
  · exact Or.inl (mem_append_right _ h)

theorem RowSound.addColumn {col : Column} (h : RowSound env t row) (hadd : AddSound env t col row) :
    RowSound env (t.addColumn col) row := by
  have hprep : ∀ {sql : Bytes} {e : BoundExpr}, prepareColExpr env t sql = .ok e →
      prepareColExpr env (t.addColumn col) sql = .ok e := by
    refine fun he => prepareColExpr_congr (fun name i hi => ?_) he
    unfold TableDef.findColumn at hi ⊢
    unfold TableDef.addColumn
    rw [findIdx?_append, hi]
    rfl
  -- a column of the new table is one of the old, or the one that was added
  have hcol : ∀ (i : Nat) (c : Column), (t.addColumn col).cols[i]? = some c → t.cols[i]? = some c ∨ c = col := by
    intro i c hi
    unfold TableDef.addColumn at hi
    rw [getElem?_append] at hi
    split at hi
    · exact Or.inl hi
    · exact Or.inr (mem_singleton.mp (mem_of_getElem? hi))
  refine ⟨fun i c hi hn => ?_, fun c hc => ?_, fun i c sql hi hsql => ?_⟩
  · rcases hcol i c hi with hold | rfl
    · exact h.notNull i c hold hn
    · rw [hadd.nullable] at hn
      cases hn
  · rcases mem_checks_addColumn hc with hold | hnew
    · obtain ⟨e, he, hholds⟩ := h.check c hold
      exact ⟨e, hprep he, hholds⟩
    · exact hadd.check c.2 hnew
  · rcases hcol i c hi with hold | rfl
    · obtain ⟨e, he, hcoerce⟩ := h.generated i c sql hold hsql
      exact ⟨e, hprep he, hcoerce⟩
    · rw [hadd.plain] at hsql
      cases hsql

end Sound

/-! ## Stored versions -/

/-- A record that holds a sound row of the tables that keep their rows here. -/
structure VersionSound (env : SqlEnv) (db : Tables) (i : Nat) (rec : Bytes) : Prop where
  decodes : ∃ vals, recordDecode rec 64 = .ok (vals, vals.length) ∧
    vals.length ≤ (db.defn i).cols.length ∧
    ∀ j < db.length, i ∈ db.parts j (db.defn j) → RowSound env (db.defn j) vals

/-- Every stored version is sound. -/
def VersionsSound (env : SqlEnv) (db : Tables) : Prop :=
  ∀ i rec, (db.data i).HasVersion rec → VersionSound env db i rec

/-- The values of a record, read with room for all of them. -/
theorem cellAt_padRow {ncol : Nat} {rec : Bytes} {vals : Row}
    (hdec : recordDecode rec 64 = .ok (vals, vals.length)) (hlen : vals.length ≤ ncol)
    (h : padRow ncol rec = some row) (i : Nat) : cellAt row i = cellAt vals i := by
  unfold padRow at h
  rw [hdec] at h
  cases h
  unfold cellAt
  rw [getElem?_map]
  by_cases hi : i < ncol
  · rw [getElem?_range hi]
    simp [List.getD]
  · rw [getElem?_eq_none (by rw [length_range]; omega), getElem?_eq_none (by omega)]
    rfl

/-- **Rows that are read are sound**, whoever reads them and as of any version. -/
theorem VersionsSound.read {env : SqlEnv} {db : Tables} (h : VersionsSound env db) {c : StmtCtx}
    {asof : UInt64} {j : Nat} (hj : j < db.length) {rows : List Row}
    (hread : matTable c db asof j (db.defn j) = .ok rows) :
    ∀ row ∈ rows, RowSound env (db.defn j) row := by
  intro row hrow
  unfold matTable at hread
  split at hread
  · cases hread
  · rename_i parts hparts
    cases hread
    obtain ⟨part, hpart, hrow⟩ := mem_flatten.mp hrow
    obtain ⟨i, hi, hone⟩ := mem_mapM_ok hparts part hpart
    unfold matScanOne at hone
    dsimp only at hone
    split at hone
    · cases hone
    · rename_i found hfound
      split at hone
      · cases hone
        obtain ⟨e, he, hpad⟩ := mem_mapM_some hfound row hrow
        obtain ⟨vals, hdec, hlen, hsound⟩ := (h i e.2 (hasVersion_of_scan he)).decodes
        exact (hsound j hj hi).congr (cellAt_padRow hdec hlen hpad)
      · cases hone

/-! ## Statements that store rows -/

/-- A value that a record gives back as it is. -/
def Storable (v : Value) : Prop := v.Fits ∧ v.stored = v

/-- The table a statement names, as it finds it: it has room for its columns, so have the tables
that hold its rows; whoever else keeps rows there demands no more; and its generated columns name
columns before them. -/
structure TableOk (env : SqlEnv) (db : Tables) (j : Nat) : Prop where
  width : (db.defn j).cols.length ≤ 64
  parts : ∀ i ∈ db.parts j (db.defn j), (db.defn i).cols.length = (db.defn j).cols.length
  covers : ∀ j' < db.length, ∀ i ∈ db.parts j (db.defn j), i ∈ db.parts j' (db.defn j') →
    Covers (db.defn j) (db.defn j')
  forward : GeneratesForward env (db.defn j)

section Statement

variable {c : StmtCtx} {db : Tables}

theorem hasVersion_call {txn : UInt64} {call : Call} {rec : Bytes}
    (h : (call.exec txn db).2.HasVersion rec) : (db.data call.table).HasVersion rec ∨
      ((call.exec txn db).1 = .ok ∧ call.kind ≠ .remove ∧ rec = recordEncode call.row) := by
  unfold Call.exec at h ⊢
  cases hkind : call.kind with
  | insert =>
    rw [hkind] at h
    rcases hasVersion_insert h with hold | hnew
    · exact Or.inl hold
    · exact Or.inr ⟨rfl, by simp, hnew⟩
  | update =>
    rw [hkind] at h
    rcases hasVersion_update h with hold | ⟨hok, hnew⟩
    · exact Or.inl hold
    · exact Or.inr ⟨hok, by simp, hnew⟩
  | remove =>
    rw [hkind] at h
    exact Or.inl (hasVersion_remove h)

/-- A stored row that was finished is a sound version. -/
theorem Finished.versionSound {j : Nat} {call : Call} {full : Row}
    (h : Finished c db j call row full) (hok : TableOk c.env db j)
    (hvals : ∀ v ∈ call.row, Storable v) :
    VersionSound c.env db call.table (recordEncode call.row) := by
  have hsound := finalizeRow_sound h.length hok.forward h.finish
  have hfull : full.length = (db.defn j).cols.length :=
    (finalizeRow_ok h.length h.finish).1.trans h.length
  have hparts := hok.parts call.table h.target
  have hrow : call.row = full := by
    rcases h.cells with heq | heq
    · exact heq
    · rw [heq, take_of_length_le (by omega)]
  have hwidth := hok.width
  have hdec : recordDecode (recordEncode call.row) 64 = .ok (call.row, call.row.length) := by
    rw [recordDecode_encode (fun v hv => (hvals v hv).1) (by rw [hrow]; omega)]
    rw [map_congr_left fun v hv => (hvals v hv).2, map_id'',
      take_of_length_le (by rw [hrow]; omega)]
    exact fun _ => rfl
  refine ⟨call.row, hdec, by rw [hrow]; omega, fun j' hj' hmem => ?_⟩
  rw [hrow]
  exact (hok.covers j' hj' call.table h.target hmem).sound hsound

theorem VersionSound.sameDefns {env : SqlEnv} {db' : Tables} {i : Nat} {rec : Bytes}
    (h : VersionSound env db i rec) (hs : SameDefns db db') : VersionSound env db' i rec := by
  obtain ⟨vals, hdec, hlen, hsound⟩ := h.decodes
  refine ⟨vals, hdec, by rw [hs.defn]; exact hlen, fun j hj hmem => ?_⟩
  rw [hs.defn, hs.parts] at hmem
  rw [hs.defn]
  exact hsound j (hs.length ▸ hj) hmem

/-- **A statement keeps every stored version sound.** -/
theorem RowStmt.keeps_sound (st : RowStmt) (hsound : VersionsSound c.env db)
    (hok : ∀ j, db.find st.table = some j → TableOk c.env db j)
    (hvals : ∀ call ∈ (st.exec c db).work.stored, ∀ v ∈ call.row, Storable v) :
    VersionsSound c.env (st.exec c db).work.db ∧ SameDefns db (st.exec c db).work.db := by
  have hrun := (st.exec_runs c db).keepsDefns.logs
  refine hrun.invariant (I := fun w => VersionsSound c.env w.db ∧ SameDefns db w.db) ?_ ?_
    ⟨hsound, SameDefns.refl db⟩
  · intro w w' hdb _ h
    rw [hdb]
    exact h
  · rintro w call ⟨⟨horigin, hs⟩, hlog⟩ ⟨hw, -⟩
    have hs' : SameDefns w.db (w.call c.txn.id call).work.db :=
      ⟨Work.call_length, Work.call_defn, Work.call_parts⟩
    refine ⟨fun i rec hrec => ?_, hs'.length.trans hs.length, fun j => (hs'.defn j).trans (hs.defn j),
      fun j t => (hs'.parts j t).trans (hs.parts j t)⟩
    rw [Work.call_db, Tables.data_setData] at hrec
    by_cases hi : call.table = i ∧ call.table < w.db.length
    · rw [if_pos hi] at hrec
      rcases hasVersion_call hrec with hold | ⟨hrc, hkind, rfl⟩
      · exact (hw i rec (hi.1 ▸ hold)).sameDefns hs'
      · -- the version that this call stored
        obtain ⟨j, row, full, hfind, hfin⟩ := horigin.finished hs hkind
        have hnew := hfin.versionSound (hok j hfind) (hvals call (mem_of_begins_snoc (hlog hrc)))
        rw [← hi.1]
        exact (hnew.sameDefns hs).sameDefns hs'
    · rw [if_neg hi] at hrec
      exact (hw i rec hrec).sameDefns hs'

end Statement

/-! ## Adding a column -/

section AddColumn

variable {db : Tables} {i j : Nat} {t : TableDef}

theorem Tables.getElem?_setDefn :
    (db.setDefn i t)[j]? = if i = j then db[j]?.map fun e => { e with defn := t } else db[j]? := by
  unfold Tables.setDefn
  rw [getElem?_modify]
  split
  · rfl
  · simp

@[simp] theorem Tables.length_setDefn : (db.setDefn i t).length = db.length := length_modify _ _ _

@[simp] theorem Tables.data_setDefn : (db.setDefn i t).data j = db.data j := by
  unfold Tables.data
  rw [Tables.getElem?_setDefn]
  split
  · rw [Option.map_map]
    rfl
  · rfl

theorem Tables.defn_setDefn (hi : i < db.length) :
    (db.setDefn i t).defn j = if i = j then t else db.defn j := by
  unfold Tables.defn
  rw [Tables.getElem?_setDefn]
  split
  · rename_i hij
    rw [← hij, getElem?_eq_getElem hi]
    rfl
  · rfl

/-- Names are found where they were, if the table keeps its name. -/
theorem Tables.find_setDefn (hname : t.name = (db.defn i).name) (name : Bytes) :
    (db.setDefn i t).find name = db.find name := by
  have gen : ∀ (l : List Entry) (k : Nat), t.name = ((l[k]?.map Entry.defn).getD (.new [])).name →
      (List.modify l k fun e => { e with defn := t }).findIdx? (fun e => sameName e.defn.name name)
        = l.findIdx? (fun e => sameName e.defn.name name) := by
    intro l
    induction l with
    | nil => intro k _; cases k <;> rfl
    | cons e l ih =>
      intro k hk
      cases k with
      | zero =>
        have he : t.name = e.defn.name := hk
        rw [modify_zero_cons, findIdx?_cons, findIdx?_cons]
        simp only [he]
      | succ k => rw [modify_succ_cons, findIdx?_cons, findIdx?_cons, ih k hk]
  exact gen db i hname

theorem Tables.parts_setDefn (hname : t.name = (db.defn i).name) (t' : TableDef) :
    (db.setDefn i t).parts j t' = db.parts j t' := by
  unfold Tables.parts
  simp only [Tables.find_setDefn hname]

/-- The parts of a table do not depend on its columns. -/
theorem Tables.parts_congr (hname : t'.name = t.name) (hkind : t'.partitionKind = t.partitionKind)
    (hcount : t'.partitionCount = t.partitionCount) :
    db.parts j t' = db.parts j t := by
  unfold Tables.parts TableDef.isHashPartitioned
  rw [hname, hkind, hcount]

/-- **A new column keeps every stored version sound**, if it demands nothing that those in its
table do not give. -/
theorem addColumn_keeps_sound {env : SqlEnv} {table : Bytes} {col : Column}
    (hsound : VersionsSound env db)
    (hadd : ∀ j, db.find table = some j → ∀ i ∈ db.parts j (db.defn j), ∀ rec vals,
      (db.data i).HasVersion rec → recordDecode rec 64 = .ok (vals, vals.length) →
      AddSound env (db.defn j) (addedColumn col) vals) :
    VersionsSound env (execAlter db table (.addColumn col)).2.2 := by
  unfold execAlter
  split
  · exact hsound
  · rename_i j hfind
    dsimp only
    split
    · exact hsound
    · have hj : j < db.length := Tables.find_lt hfind
      intro i rec hrec
      rw [Tables.data_setDefn] at hrec
      obtain ⟨vals, hdec, hlen, hold⟩ := (hsound i rec hrec).decodes
      refine ⟨vals, hdec, ?_, fun j' hj' hmem => ?_⟩
      · rw [Tables.defn_setDefn hj]
        split
        · rename_i hij
          rw [hij]
          refine hlen.trans ?_
          simp [TableDef.addColumn]
        · exact hlen
      · rw [Tables.length_setDefn] at hj'
        rw [Tables.parts_setDefn (by rfl)] at hmem
        rw [Tables.defn_setDefn hj] at hmem ⊢
        split
        · rename_i hjj
          subst hjj
          rw [if_pos rfl, Tables.parts_congr (by rfl) (by rfl) (by rfl)] at hmem
          have hnew := (hold j hj hmem).addColumn (hadd j hfind i hmem rec vals hrec hdec)
          have hcounted : Covers ((db.defn j).addColumn (addedColumn col))
              { (db.defn j).addColumn (addedColumn col) with
                schemaVersion := (db.defn j).schemaVersion + 1 } :=
            ⟨rfl, fun _ c hi hn => ⟨c, hi, hn⟩, fun c hc => ⟨c, hc, rfl⟩,
              fun _ c _ hi hsql => ⟨c, hi, hsql, rfl⟩⟩
          exact hcounted.sound hnew
        · rename_i hjj
          rw [if_neg hjj] at hmem
          exact hold j' hj' hmem

end AddColumn

/-! ## Sequences of statements -/

/-- A statement on the tables, in some transaction. -/
inductive Change where
  | row (s : TxnStmt)
  | addColumn (table : Bytes) (col : Column)

def Change.exec (env : SqlEnv) (db : Tables) : Change → Tables
  | .row s => (s.exec env db).work.db
  | .addColumn table col => (execAlter db table (.addColumn col)).2.2

/-- The conditions under which a statement keeps the rows sound. -/
def Change.Ok (env : SqlEnv) (db : Tables) : Change → Prop
  | .row s =>
    (∀ j, db.find s.st.table = some j → TableOk env db j) ∧
      ∀ call ∈ (s.exec env db).work.stored, ∀ v ∈ call.row, Storable v
  | .addColumn table col =>
    ∀ j, db.find table = some j → ∀ i ∈ db.parts j (db.defn j), ∀ rec vals,
      (db.data i).HasVersion rec → recordDecode rec 64 = .ok (vals, vals.length) →
      AddSound env (db.defn j) (addedColumn col) vals

/-- The tables after a sequence of statements. -/
def runChanges (env : SqlEnv) : Tables → List Change → Tables
  | db, [] => db
  | db, s :: ss => runChanges env (s.exec env db) ss

/-- Each statement meets its conditions when it is executed. -/
def ChangesOk (env : SqlEnv) : Tables → List Change → Prop
  | _, [] => True
  | db, s :: ss => s.Ok env db ∧ ChangesOk env (s.exec env db) ss

/-- One statement. -/
theorem Change.keeps {env : SqlEnv} {db : Tables} (s : Change) (hsound : VersionsSound env db)
    (hok : s.Ok env db) : VersionsSound env (s.exec env db) := by
  cases s with
  | row s => exact (s.st.keeps_sound (c := s.ctx env) hsound hok.1 hok.2).1
  | addColumn table col => exact addColumn_keeps_sound hsound hok

theorem runChanges_sound {env : SqlEnv} : ∀ {ss : List Change} {db : Tables},
    VersionsSound env db → ChangesOk env db ss → VersionsSound env (runChanges env db ss) := by
  intro ss
  induction ss with
  | nil => exact fun h _ => h
  | cons s ss ih => exact fun h hok => ih (s.keeps h hok.1) hok.2

/-- **Declared constraints are invariants**, as long as each statement meets its conditions: from
tables without rows, every row that any transaction reads from any table satisfies what the table
declares. -/
theorem changes_sound (env : SqlEnv) (db : Tables) (hfresh : ∀ i, db.data i = .empty) (ss : List Change)
    (hok : ChangesOk env db ss) (c : StmtCtx) (asof : UInt64) (j : Nat)
    (hj : j < (runChanges env db ss).length) (rows : List Row)
    (hread : matTable c (runChanges env db ss) asof j ((runChanges env db ss).defn j) = .ok rows) :
    ∀ row ∈ rows, RowSound env ((runChanges env db ss).defn j) row := by
  have hstart : VersionsSound env db := by
    intro i rec hrec
    rw [hfresh i] at hrec
    exact absurd hrec not_hasVersion_empty
  exact (runChanges_sound hstart hok).read hj hread

/-- `CREATE TABLE t (a INTEGER NOT NULL, g INTEGER GENERATED ALWAYS AS (a))`. -/
def generatedTable : Tables :=
  [⟨{ TableDef.new [116] with
      cols := [{ intColumn [97] with notnull := true },
        { intColumn [103] with generated := .stored, generatedSql := some [97] }] }, .empty⟩]

theorem generatedTable_ok : TableOk columnEnv generatedTable 0 := by
  refine ⟨by decide, fun i hi => ?_, fun j' hj' i _ _ => ?_, fun i col sql e hi hsql he k hk => ?_⟩
  · rw [mem_singleton.mp hi]
  · rw [show j' = 0 from by change j' < 1 at hj'; omega]
    exact Covers.refl _
  · have hlt : i < 2 := (List.getElem?_eq_some_iff.mp hi).1
    interval_cases i
    · cases hi
      cases hsql
    · cases hi
      cases hsql
      cases he
      rw [mem_singleton.mp hk]
      exact Nat.one_pos

/-- A row is stored, and a column that demands nothing is added. -/
def plainChanges : List Change :=
  [.row (firstStmt (.insert (insertValues [116] [.int 5]))), .addColumn [116] (intColumn [99])]

theorem plainChanges_ok : ChangesOk columnEnv generatedTable plainChanges := by
  refine ⟨⟨fun j hj => ?_, ?_⟩, ?_, trivial⟩
  · have hlt : j < 1 := Tables.find_lt hj
    rw [show j = 0 from by omega]
    exact generatedTable_ok
  · have hstored : ((firstStmt (.insert (insertValues [116] [.int 5]))).exec columnEnv
        generatedTable).work.stored = [⟨.insert, 0, 1, [.int 5, .int 5]⟩] := by decide +kernel
    rw [hstored]
    intro call hcall v hv
    rw [mem_singleton.mp hcall] at hv
    rcases mem_pair.mp hv with rfl | rfl <;> exact ⟨trivial, rfl⟩
  · exact fun j _ i _ rec vals _ _ => ⟨rfl, rfl, fun sql hsql => by cases hsql⟩

theorem changes_sound_plain :
    let db := runChanges columnEnv generatedTable plainChanges
    matTable firstCtx db 0 0 (db.defn 0) = .ok [[.int 5, .int 5, .null]] ∧
      RowSound columnEnv (db.defn 0) [.int 5, .int 5, .null] := by
  have hread : matTable firstCtx (runChanges columnEnv generatedTable plainChanges) 0 0
      ((runChanges columnEnv generatedTable plainChanges).defn 0) = .ok [[.int 5, .int 5, .null]] := by
    decide +kernel
  refine ⟨hread, changes_sound columnEnv generatedTable (fun i => ?_) _ plainChanges_ok
    firstCtx 0 0 (by decide +kernel) _ hread _ (mem_singleton_self _)⟩
  cases i <;> rfl

/-- **A column that is NOT NULL is added to a table with a row.** Both statements succeed, and the
row now has NULL in the column. -/
theorem addColumn_notNull_violated :
    let db := (execInsert firstCtx generatedTable (insertValues [116] [.int 5])).work.db
    let col : Column := { intColumn [99] with notnull := true }
    let db' := (execAlter db [116] (.addColumn col)).2.2
    (execInsert firstCtx generatedTable (insertValues [116] [.int 5])).rc = .ok ∧
      (execAlter db [116] (.addColumn col)).1 = .ok ∧
      matTable firstCtx db' 0 0 (db'.defn 0) = .ok [[.int 5, .int 5, .null]] ∧
      (db'.defn 0).cols[2]? = some col ∧ ¬ RowSound columnEnv (db'.defn 0) [.int 5, .int 5, .null] := by
  refine ⟨by decide +kernel, by decide +kernel, by decide +kernel, by decide +kernel, fun hsound => ?_⟩
  exact hsound.notNull 2 { intColumn [99] with notnull := true } (by decide +kernel) rfl rfl

end Tdb.Exec
