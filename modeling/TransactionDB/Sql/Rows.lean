import TransactionDB.Catalog.Schema

/-!
# TransactionDB — rows and the constraints of their table

`prepare_col_expr`, `pk_int_col` and `finalize_row` of `src/sql/tdb_exec_dml.inc`. Before a row is
stored, its columns are finished from left to right: a generated column is computed from the row as
it stands, then the value is converted to the type of the column and checked against NOT NULL. The
CHECK expressions follow, on the finished row.

An expression over the columns of a table is the list of the columns it names and what it makes of
their values. The parser is a parameter that turns SQL text into such expressions; it stands for
`tdb_parse_expression` and for the evaluation of operators and functions. Expressions that read
other tables, the clock or random numbers are left out.

* `finalizeRow_ok`: what is known of a row that passed.
-/

namespace Tdb

open List

/-- The values of a row, one for each column. -/
abbrev Row := List Value

/-- What a statement reports. -/
inductive SqlMsg where
  /-- A text of the parser, or "bad expression". -/
  | parse (text : Bytes)
  /-- "no such table: %s" -/
  | noSuchTable (name : Bytes)
  /-- "no such column: %s" -/
  | noSuchColumn (name : Bytes)
  /-- "column %s: %s" -/
  | columnType (column : Bytes) (why : String)
  /-- "NOT NULL constraint failed: %s" -/
  | notNull (column : Bytes)
  /-- "CHECK constraint failed: %s", without the column for the one of the table. -/
  | check (column : Option Bytes)
  /-- "partition column %s missing on %s" -/
  | noPartitionColumn (column table : Bytes)
  /-- "missing partition %s" -/
  | noPartition (child : Bytes)
  /-- "UNIQUE constraint failed: %s primary key" -/
  | uniquePrimaryKey (table : Bytes)
  /-- "too many SET clauses" -/
  | tooManySets
  /-- "permission denied: %s on TABLE '%s' for user '%s'" -/
  | denied (priv object user : Bytes)
  /-- "duplicate column name: %s" -/
  | duplicateColumn (name : Bytes)
  /-- "table %s already exists" -/
  | tableExists (name : Bytes)
  /-- "cannot drop the only column of %s" -/
  | onlyColumn (table : Bytes)
  /-- "cannot drop PRIMARY KEY column: %s" -/
  | dropsPrimaryKey (column : Bytes)
  /-- "cannot drop system column: %s" -/
  | dropsSystemColumn (column : Bytes)
  /-- "cannot drop column %s: used by index %s" -/
  | usedByIndex (column index : Bytes)
  /-- "TRUNCATE ... RESTART IDENTITY is not supported: ..." -/
  | restartIdentity
  deriving DecidableEq, Repr

/-! ## Expressions -/

/-- An expression: the columns it names, and what it makes of their values. -/
structure ColExpr where
  names : List Bytes
  fn : List Value → Value

/-- The parser for expressions in a schema, and the conversions of values. -/
structure SqlEnv where
  lib : TypeLib
  parse : Bytes → Except Bytes ColExpr

/-- `val_true`. -/
def valTrue : Value → Bool
  | .null => false
  | .int i => i ≠ 0
  -- a double is zero with either sign
  | .real bits => bits <<< 1 ≠ 0
  | .text b | .blob b | .composite b => b ≠ []

/-- A column of the row at hand; NULL if it has none. -/
def cellAt (row : Row) (i : Nat) : Value := row[i]?.getD .null

/-- `resolve_expr`, over one table. -/
def resolveNames (t : TableDef) : List Bytes → Except SqlMsg (List Nat)
  | [] => .ok []
  | name :: names =>
    match t.findColumn name with
    | none => .error (.noSuchColumn name)
    | some i =>
      match resolveNames t names with
      | .error msg => .error msg
      | .ok is => .ok (i :: is)

/-- A resolved expression. -/
structure BoundExpr where
  cols : List Nat
  fn : List Value → Value

def BoundExpr.eval (e : BoundExpr) (row : Row) : Value := e.fn (e.cols.map (cellAt row))

/-- `prepare_col_expr`. -/
def prepareColExpr (env : SqlEnv) (t : TableDef) (sql : Bytes) : Except SqlMsg BoundExpr :=
  match env.parse sql with
  | .error text => .error (.parse text)
  | .ok e =>
    match resolveNames t e.names with
    | .error msg => .error msg
    | .ok is => .ok ⟨is, e.fn⟩

/-! ## The primary key -/

/-- The columns of the primary key. -/
def TableDef.pkCols (t : TableDef) : List Nat :=
  (t.cols.zipIdx.filter fun c => c.1.pk).map Prod.snd

/-- `pk_int_col`: a single integer key stands for the row id. -/
def pkIntCol (t : TableDef) : Option Nat :=
  match t.pkCols with
  | [i] => if (t.cols[i]?.map fun c => c.type.id.isKeyType).getD false then some i else none
  | _ => none

/-! ## Finishing a row -/

/-- The expression of a generated column. -/
def Column.generator (col : Column) : Option Bytes :=
  if col.generated = .none then none else col.generatedSql

/-- The value of column `i` before it is checked. -/
def columnInput (env : SqlEnv) (t : TableDef) (i : Nat) (col : Column) (row : Row) :
    Except (Status × SqlMsg) Value :=
  match col.generator with
  | none => .ok (cellAt row i)
  | some sql =>
    match prepareColExpr env t sql with
    | .error msg => .error (.error, msg)
    | .ok e => .ok (e.eval row)

/-- The body of the loop over the columns in `finalize_row`. -/
def finalizeCol (env : SqlEnv) (t : TableDef) (i : Nat) (col : Column) (row : Row) :
    Except (Status × SqlMsg) Row :=
  match columnInput env t i col row with
  | .error e => .error e
  | .ok v =>
    match typespecCoerce env.lib col.type v with
    | .error (rc, why) => .error (rc, .columnType col.name why)
    | .ok w =>
      if col.notnull ∧ w = .null then .error (.constraint, .notNull col.name)
      else .ok (row.set i w)

/-- The loop over the columns, from column `i` on. -/
def finalizeCols (env : SqlEnv) (t : TableDef) : Nat → List Column → Row → Except (Status × SqlMsg) Row
  | _, [], row => .ok row
  | i, col :: cols, row =>
    match finalizeCol env t i col row with
    | .error e => .error e
    | .ok row => finalizeCols env t (i + 1) cols row

/-- NULL counts as passed. -/
def checkHolds (v : Value) : Bool := v = .null ∨ valTrue v

/-- One CHECK; `column` is `none` for the one of the table. -/
def checkExpr (env : SqlEnv) (t : TableDef) (row : Row) (column : Option Bytes) (sql : Bytes) :
    Except (Status × SqlMsg) Unit :=
  match prepareColExpr env t sql with
  | .error msg => .error (.error, msg)
  | .ok e => if checkHolds (e.eval row) then .ok () else .error (.constraint, .check column)

/-- The CHECKs of a table, those of the columns first. -/
def TableDef.checks (t : TableDef) : List (Option Bytes × Bytes) :=
  (t.cols.filterMap fun c => c.checkSql.map fun sql => (some c.name, sql))
    ++ t.checkSql.toList.map fun sql => (none, sql)

/-- The CHECKs in order, up to the first that fails. -/
def checkRow (env : SqlEnv) (t : TableDef) (row : Row) :
    List (Option Bytes × Bytes) → Except (Status × SqlMsg) Unit
  | [] => .ok ()
  | (column, sql) :: rest =>
    match checkExpr env t row column sql with
    | .error e => .error e
    | .ok () => checkRow env t row rest

/-- `finalize_row`. -/
def finalizeRow (env : SqlEnv) (t : TableDef) (row : Row) : Except (Status × SqlMsg) Row :=
  match finalizeCols env t 0 t.cols row with
  | .error e => .error e
  | .ok row =>
    match checkRow env t row t.checks with
    | .error e => .error e
    | .ok () => .ok row

/-! ## What a finished row satisfies -/

section Finalize

variable {env : SqlEnv} {t : TableDef}

theorem cellAt_set (row : Row) (i j : Nat) (v : Value) (hi : i < row.length) :
    cellAt (row.set i v) j = if j = i then v else cellAt row j := by
  unfold cellAt
  by_cases hj : j = i
  · simp [hj, hi]
  · rw [getElem?_set_ne (fun h => hj h.symm), if_neg hj]

/-- One column: the value that was put in, converted, and nothing else changed. -/
theorem finalizeCol_ok {i : Nat} {col : Column} {row row' : Row}
    (h : finalizeCol env t i col row = .ok row') :
    ∃ v w, columnInput env t i col row = .ok v ∧ typespecCoerce env.lib col.type v = .ok w ∧
      (col.notnull = true → w ≠ .null) ∧ row' = row.set i w := by
  unfold finalizeCol at h
  split at h
  · cases h
  · rename_i v hv
    split at h
    · cases h
    · rename_i w hw
      split at h
      · cases h
      · rename_i hnull
        exact ⟨v, w, hv, hw, fun hn hwn => hnull ⟨hn, hwn⟩, (Except.ok.inj h).symm⟩

/-- The row when the loop reaches a column: what is before is finished, the rest is as given. -/
def midRow (row row' : Row) (i : Nat) : Row := row'.take i ++ row.drop i

theorem cellAt_midRow {row row' : Row} {i : Nat} (hlen : row'.length = row.length) (j : Nat) :
    cellAt (midRow row row' i) j = if j < i then cellAt row' j else cellAt row j := by
  unfold cellAt midRow
  by_cases hj : j < i
  · rw [if_pos hj]
    by_cases hjl : j < row'.length
    · rw [getElem?_append_left (by rw [length_take]; omega), getElem?_take_of_lt hj]
    · rw [getElem?_append_right (by rw [length_take]; omega), getElem?_eq_none (by
        rw [length_drop, length_take]; omega), getElem?_eq_none (by omega)]
  · rw [if_neg hj]
    by_cases hil : i ≤ row'.length
    · rw [getElem?_append_right (by rw [length_take]; omega), length_take,
        getElem?_drop]
      congr 2
      omega
    · rw [getElem?_append_right (by rw [length_take]; omega), getElem?_eq_none (by
        rw [length_drop, length_take]; omega), getElem?_eq_none (by omega)]

/-- An expression only reads the columns it names. -/
theorem BoundExpr.eval_congr {e : BoundExpr} {row row' : Row}
    (h : ∀ j ∈ e.cols, cellAt row j = cellAt row' j) : e.eval row = e.eval row' := by
  unfold BoundExpr.eval
  rw [map_congr_left h]

theorem columnInput_congr {i : Nat} {col : Column} {row row' : Row}
    (h : ∀ j, cellAt row j = cellAt row' j) :
    columnInput env t i col row = columnInput env t i col row' := by
  unfold columnInput
  split
  · rw [h i]
  · split
    · rfl
    · rw [BoundExpr.eval_congr fun j _ => h j]

/-- What the loop made of each column from `i` on. -/
theorem finalizeCols_ok : ∀ {cols : List Column} {i : Nat} {row row' : Row},
    i + cols.length ≤ row.length → finalizeCols env t i cols row = .ok row' →
    row'.length = row.length ∧ (∀ j, j < i ∨ i + cols.length ≤ j → cellAt row' j = cellAt row j) ∧
      ∀ k col, cols[k]? = some col → ∃ v,
        columnInput env t (i + k) col (midRow row row' (i + k)) = .ok v ∧
        typespecCoerce env.lib col.type v = .ok (cellAt row' (i + k)) ∧
        (col.notnull = true → cellAt row' (i + k) ≠ .null) := by
  intro cols
  induction cols with
  | nil =>
    intro i row row' _ h
    cases h
    exact ⟨rfl, fun _ _ => rfl, fun k col hk => by simp at hk⟩
  | cons col cols ih =>
    intro i row row' hlen h
    rw [length_cons] at hlen
    rw [finalizeCols] at h
    split at h
    · cases h
    · rename_i row1 hcol
      obtain ⟨v, w, hv, hw, hnull, rfl⟩ := finalizeCol_ok hcol
      have hset := fun j => cellAt_set row i j w (by omega)
      obtain ⟨hlen', hother, hcols⟩ := ih (by rw [length_set]; omega) h
      rw [length_set] at hlen'
      have hw' : cellAt row' i = w := by rw [hother i (Or.inl (by omega)), hset, if_pos rfl]
      refine ⟨hlen', fun j hj => ?_, fun k c hk => ?_⟩
      · rw [length_cons] at hj
        rw [hother j (by omega), hset, if_neg (by omega)]
      · cases k with
        | zero =>
          cases hk
          refine ⟨v, ?_, by rw [Nat.add_zero, hw']; exact hw, by rw [Nat.add_zero, hw']; exact hnull⟩
          rw [Nat.add_zero, ← hv]
          refine columnInput_congr fun j => ?_
          rw [cellAt_midRow hlen']
          split
          · rename_i hj
            rw [hother j (Or.inl (by omega)), hset, if_neg (by omega)]
          · rfl
        | succ k =>
          obtain ⟨u, hu, hcoerce, hnn⟩ := hcols k c hk
          rw [show i + (k + 1) = i + 1 + k from by omega]
          refine ⟨u, ?_, hcoerce, hnn⟩
          rw [← hu]
          -- the row given and the row after column `i` differ at `i`, which is finished
          refine columnInput_congr fun j => ?_
          rw [cellAt_midRow hlen', cellAt_midRow (by rw [length_set]; exact hlen')]
          split
          · rfl
          · rw [hset, if_neg (by omega)]

/-- A CHECK that a row has passed. -/
theorem checkRow_ok {row : Row} : ∀ {cs : List (Option Bytes × Bytes)}, checkRow env t row cs = .ok () →
    ∀ c ∈ cs, ∃ e, prepareColExpr env t c.2 = .ok e ∧ checkHolds (e.eval row) = true := by
  intro cs
  induction cs with
  | nil => exact fun _ c hc => absurd hc not_mem_nil
  | cons c cs ih =>
    intro h
    rw [checkRow] at h
    split at h
    · cases h
    · rename_i hexpr
      intro c' hc'
      rcases mem_cons.mp hc' with rfl | hmem
      · unfold checkExpr at hexpr
        split at hexpr
        · cases hexpr
        · rename_i e he
          split at hexpr
          · exact ⟨e, he, ‹_›⟩
          · cases hexpr
      · exact ih h c' hmem

/-- **A row that passed.** Every column holds what was put in for it, converted to its type; a
generated column was computed from the columns before it as they are now, and from the others as
they were given. NOT NULL and every CHECK hold. -/
theorem finalizeRow_ok {row row' : Row} (hlen : row.length = t.cols.length)
    (h : finalizeRow env t row = .ok row') :
    row'.length = row.length ∧
      (∀ i col, t.cols[i]? = some col → ∃ v,
        columnInput env t i col (midRow row row' i) = .ok v ∧
        typespecCoerce env.lib col.type v = .ok (cellAt row' i) ∧
        (col.notnull = true → cellAt row' i ≠ .null)) ∧
      ∀ c ∈ t.checks, ∃ e, prepareColExpr env t c.2 = .ok e ∧ checkHolds (e.eval row') = true := by
  unfold finalizeRow at h
  split at h
  · cases h
  · rename_i row1 hcols
    split at h
    · cases h
    · rename_i hchecks
      cases h
      obtain ⟨hlen', -, hcol⟩ := finalizeCols_ok (by omega) hcols
      refine ⟨hlen', fun i col hi => ?_, checkRow_ok hchecks⟩
      obtain ⟨v, hv, hcoerce, hnn⟩ := hcol i col hi
      rw [Nat.zero_add] at hv hcoerce hnn
      exact ⟨v, hv, hcoerce, hnn⟩

end Finalize

end Tdb
