import TransactionDB.Sql.Eval
import TransactionDB.Sql.StatementCalls

/-!
# TransactionDB — subqueries that fail

INSERT, UPDATE and DELETE with their expressions as the parser makes them, over the statements of
`Sql.Statement`. `eval` runs the subqueries of an expression, and takes one that fails for one without
rows; no error comes out of an expression. So a statement does what it would do if those subqueries had
no rows (`exec_quiet`), and it fails only if it fails then (`subquery_errors_iff`).

`errors` are the errors of the subqueries that fail while an expression is evaluated: only those that are
run, in their order. A subquery may run others; it brings their errors along.
-/

namespace Tdb.Sql

open Exec

/-! ## Errors of an expression -/

/-- The errors of a subquery and of those within. -/
def SubRun.errors (r : SubRun) : List Status :=
  r.inner ++ match r.result with
    | .ok _ => []
    | .error rc => [rc]

/-- The arguments that a function evaluates. -/
def FuncRun.asked : FuncRun → List Value → List Nat
  | .done _ _, _ => []
  | .arg i next, vs => i :: (next (cellAt vs i)).asked vs

section Errors

variable (L : EvalLib)

mutual

/-- The errors of the subqueries that fail while `eval` runs. -/
def errors (c : Ectx) : Expr → List Status
  | .unary _ left | .cast left _ => errors c left
  | .binary .and left right =>
    errors c left ++ if valTrue (eval L c left).2 then errors c right else []
  | .binary .or left right =>
    errors c left ++ if valTrue (eval L c left).2 then [] else errors c right
  | .binary _ left right | .is _ left right | .glob _ left right => errors c left ++ errors c right
  | .like _ left right escape =>
    errors c left ++ errors c right ++
      if (eval L c left).2 = .null ∨ (eval L c right).2 = .null then [] else errorsOption c.unresolved escape
  | .between _ left lo hi => errors c left ++ errors c lo ++ errors c hi
  | .inList _ left args => errors c left ++ errorsIn c (eval L c left).2 args
  | .inQuery _ left q => errors c left ++ (c.run q).errors
  | .subquery q | .exists q => (c.run q).errors
  | .case base args els =>
    errorsOption c base ++ errorsWhens c (evalOption L c base) args ++
      if (evalWhens L c (evalOption L c base) args).isNone then errorsOption c els else []
  | .func name args =>
    let each := errorsEach c args
    ((L.func name args.length).asked (evalList L c args)).flatMap fun i => each[i]?.getD []
  | _ => []

def errorsOption (c : Ectx) : Option Expr → List Status
  | none => []
  | some e => errors c e

def errorsEach (c : Ectx) : List Expr → List (List Status)
  | [] => []
  | e :: es => errors c e :: errorsEach c es

/-- The values of a list, up to the first that is equal. -/
def errorsIn (c : Ectx) (x : Value) : List Expr → List Status
  | [] => []
  | e :: es => errors c e ++ if amongValues x [(eval L c e).2] then [] else errorsIn c x es

/-- The arms of a CASE, up to the one that is taken. -/
def errorsWhens (c : Ectx) (base : Option Value) : List Expr → List Status
  | w :: v :: rest =>
    errors c w ++ if caseHit base (eval L c w).2 then errors c v else errorsWhens c base rest
  | _ => []

end

end Errors

/-! ## Statements -/

mutual

/-- The columns of an expression, as they are resolved; ESCAPE and subqueries are not. -/
def Expr.columns : Expr → List (Option Bytes × Bytes)
  | .column table name => [(table, name)]
  | .unary _ left | .cast left _ | .inQuery _ left _ => left.columns
  | .binary _ left right | .is _ left right | .like _ left right _ | .glob _ left right =>
    left.columns ++ right.columns
  | .between _ left lo hi => left.columns ++ lo.columns ++ hi.columns
  | .inList _ left args => left.columns ++ columnsList args
  | .case base args els => columnsOption base ++ columnsOption els ++ columnsList args
  | .func _ args | .agg _ _ args => columnsList args
  | .window _ args partition order _ => columnsList args ++ columnsList partition ++ columnsList order
  | _ => []

def columnsOption : Option Expr → List (Option Bytes × Bytes)
  | none => []
  | some e => e.columns

def columnsList : List Expr → List (Option Bytes × Bytes)
  | [] => []
  | e :: es => e.columns ++ columnsList es

end

/-- What the expressions of a statement are evaluated with. A subquery sees the tables, and the cells of
the row that the expression is evaluated on. -/
structure SubEnv where
  lib : EvalLib
  params : List Value
  run : Tables → (Option Bytes → Bytes → Value) → Select → SubRun

/-- The context for columns with these values. -/
def SubEnv.ctx (S : SubEnv) (db : Tables) (cols : List (Option Bytes × Bytes)) (vals : List Value) : Ectx :=
  let cell := fun table name => ((cols.zip vals).lookup (table, name)).getD .null
  ⟨cell, S.params, fun _ _ _ => .null, fun _ _ _ _ => .null, S.run db cell⟩

/-- An expression of a statement. -/
def SubEnv.expr (S : SubEnv) (e : Expr) : StmtExpr :=
  ⟨e.columns.map Prod.snd, fun db vals => (eval S.lib (S.ctx db e.columns vals) e).2⟩

/-- The errors of the subqueries of an expression, evaluated on a row of the table. -/
def SubEnv.errors (S : SubEnv) (t : TableDef) (db : Tables) (row : Row) (e : Expr) : List Status :=
  match resolveNames t (e.columns.map Prod.snd) with
  | .error _ => []
  | .ok is => Sql.errors S.lib (S.ctx db e.columns (is.map (cellAt row))) e

def SubEnv.retItem (S : SubEnv) : Expr → RetItem
  | .star => .star
  | e => .expr (S.expr e)

/-- `ON CONFLICT`. -/
inductive SqlConflict where
  | doNothing
  | doUpdate (sets : List (Bytes × Expr)) (cond : Option Expr)

inductive SqlSource where
  | values (rows : List (List Expr))
  | select (q : Select)

/-- The statements that change rows, with their expressions. -/
inductive SqlStmt where
  | insert (table : Bytes) (cols : List Bytes) (source : SqlSource) (orAction : ConflictAction)
      (upsert : Option SqlConflict) (returning : Option (List Expr))
  | update (table : Bytes) (sets : List (Bytes × Expr)) (cond : Option Expr) (returning : Option (List Expr))
  | delete (table : Bytes) (cond : Option Expr) (returning : Option (List Expr))

def SubEnv.sets (S : SubEnv) (sets : List (Bytes × Expr)) : List (Bytes × StmtExpr) :=
  sets.map fun s => (s.1, S.expr s.2)

def SubEnv.conflict (S : SubEnv) : SqlConflict → OnConflict
  | .doNothing => .doNothing
  | .doUpdate sets cond => .doUpdate (S.sets sets) (cond.map S.expr)

/-- The query of `INSERT ... SELECT` is no expression: its error is the error of the statement. -/
def SubEnv.source (S : SubEnv) (select : Tables → Select → Except Status (List Row)) :
    SqlSource → InsertSource
  | .values rows => .values (rows.map (List.map S.expr))
  | .select q => .select fun db => (select db q).mapError fun rc => (rc, none)

/-- A statement with its expressions compiled. -/
def SqlStmt.compile (S : SubEnv) (select : Tables → Select → Except Status (List Row)) : SqlStmt → RowStmt
  | .insert table cols source orAction upsert returning =>
    .insert ⟨table, cols, S.source select source, orAction, upsert.map S.conflict,
      returning.map (List.map S.retItem)⟩
  | .update table sets cond returning =>
    .update ⟨table, S.sets sets, cond.map S.expr, returning.map (List.map S.retItem)⟩
  | .delete table cond returning =>
    .delete ⟨table, cond.map S.expr, returning.map (List.map S.retItem)⟩

/-- A query outside of expressions. -/
def SubEnv.select (S : SubEnv) (db : Tables) (q : Select) : Except Status (List Row) :=
  (S.run db (fun _ _ => .null) q).result

def SqlStmt.exec (S : SubEnv) (c : StmtCtx) (db : Tables) (st : SqlStmt) : Outcome :=
  (st.compile S S.select).exec c db

/-! ## Errors of a statement -/

section StmtErrors

variable (S : SubEnv) (c : StmtCtx)

/-- A loop: the errors of each turn that is reached. -/
def loopErrors {α : Type} (body : Work → α → Outcome) (errs : Work → α → List Status) (w : Work) :
    List α → List Status
  | [] => []
  | x :: xs =>
    errs w x ++ if (body w x).rc = .ok then loopErrors body errs (body w x).work xs else []

/-- RETURNING is evaluated on the row as it was stored. -/
def returningErrors (t : TableDef) (o : Outcome) (row : Row) (returning : Option (List Expr)) :
    List Status :=
  if o.rc = .ok then (returning.getD []).flatMap (S.errors t o.work.db row) else []

def updateErrors (p : ChangePlan) (sets : List (Bytes × Expr)) (cond : Option Expr)
    (returning : Option (List Expr)) (w : Work) (r : MatRow) : List Status :=
  cond.toList.flatMap (S.errors p.t w.db r.row) ++
    if whereTrue w.db r.row p.cond then
      sets.flatMap (fun s => S.errors p.t w.db r.row s.2) ++
        match finalizeRow c.env p.t (updateSets w.db r.row p.sets) with
        | .error _ => []
        | .ok full => returningErrors S p.t (storeChanged c w p r full) full returning
    else []

def deleteErrors (p : ChangePlan) (cond : Option Expr) (returning : Option (List Expr)) (w : Work)
    (r : MatRow) : List Status :=
  cond.toList.flatMap (S.errors p.t w.db r.row) ++
    if whereTrue w.db r.row p.cond then
      returningErrors S p.t (w.call c.txn.id ⟨.remove, r.src, r.rowid, []⟩) r.row returning
    else []

/-- A row that is stored, and RETURNING. -/
def storeErrors (p : InsertPlan) (w : Work) (row : Row) (rowid : UInt64) (isUpdate : Bool)
    (returning : Option (List Expr)) : List Status :=
  match finalizeRow c.env p.t row with
  | .error _ => []
  | .ok full =>
    returningErrors S p.t (Exec.storeFull c w p.i p.t row rowid isUpdate fun w _ => w) full returning

/-- The assignments of `DO UPDATE`, each on the row that those before it made. -/
def upsertErrors (t : TableDef) (db : Tables) (row : Row) : List (Nat × BoundStmtExpr) → List Expr →
    List Status
  | s :: sets, e :: es => S.errors t db row e ++ upsertErrors t db (row.set s.1 (s.2.eval db row)) sets es
  | _, _ => []

/-- The expressions of the clause. -/
def SqlConflict.parts : Option SqlConflict → List Expr × Option Expr
  | some (.doUpdate sets cond) => (sets.map Prod.snd, cond)
  | _ => ([], none)

def insertErrors (p : InsertPlan) (upsert : Option SqlConflict) (returning : Option (List Expr)) (w : Work)
    (src : Row) : List Status :=
  let (rowid, full) := insertInput c p w src
  match insertConflict c p w rowid with
  | none => storeErrors S c p w full rowid false returning
  | some ex =>
    match p.orAction, p.upsert with
    | .ignore, _ => []
    | _, some .doNothing => []
    | .replace, _ => storeErrors S c p w full rowid true returning
    | _, some (.doUpdate sets cond) =>
      let row := conflictRow p ex
      (SqlConflict.parts upsert).2.toList.flatMap (S.errors p.t w.db row) ++
        if whereTrue w.db row cond then
          upsertErrors S p.t w.db row sets (SqlConflict.parts upsert).1 ++
            storeErrors S c p w (upsertSets w.db row sets) rowid true returning
        else []
    | _, none => []

/-- The errors of the subqueries that fail while a statement runs. -/
def SqlStmt.errors (db : Tables) (st : SqlStmt) : List Status :=
  let w := Work.start db
  match st, st.compile S S.select with
  | .insert _ _ source _ upsert returning, .insert a =>
    match planInsert c db a with
    | .error _ => []
    | .ok p =>
      match source, a.source with
      | .select q, .select _ =>
        (S.run db (fun _ _ => .null) q).inner ++
          match S.select db q with
          | .error _ => []
          | .ok rows => loopErrors (Exec.insertRowVals c p) (insertErrors S c p upsert returning) w rows
      | .values rows, .values srcs =>
        match srcs.mapM (List.mapM (StmtExpr.bind noTable)) with
        | .error _ => []
        | .ok srcs =>
          loopErrors (fun w e => Exec.insertRowVals c p w (e.2.map fun e => e.eval w.db []))
            (fun w e => e.1.flatMap (S.errors noTable w.db []) ++
              insertErrors S c p upsert returning w (e.2.map fun e => e.eval w.db [])) w (rows.zip srcs)
      | _, _ => []
  | .update _ sets cond returning, .update a =>
    match planChange c db "UPDATE".toUTF8.toList a.table a.sets a.cond a.returning with
    | .error _ => []
    | .ok p =>
      match matRid c db p.i p.t with
      | .error _ => []
      | .ok rows => loopErrors (Exec.updateRow c p) (updateErrors S c p sets cond returning) w rows
  | .delete _ cond returning, .delete a =>
    match planChange c db "DELETE".toUTF8.toList a.table [] a.cond a.returning with
    | .error _ => []
    | .ok p =>
      match matRid c db p.i p.t with
      | .error _ => []
      | .ok rows => loopErrors (Exec.deleteRow c p) (deleteErrors S c p cond returning) w rows
  | _, _ => []

end StmtErrors

/-! ## Without the errors -/

/-- A subquery that fails has no rows. -/
def SubRun.quiet (r : SubRun) : SubRun := ⟨.ok r.rows, r.inner⟩

def Ectx.quiet (c : Ectx) : Ectx := { c with run := fun q => (c.run q).quiet }

/-- The environment in which the subqueries that fail have no rows instead. -/
def SubEnv.quiet (S : SubEnv) : SubEnv := { S with run := fun db cell q => (S.run db cell q).quiet }

section Quiet

variable {L : EvalLib} {c : Ectx}

@[simp] theorem rows_quiet (r : SubRun) : r.quiet.rows = r.rows := rfl

@[simp] theorem rows_run_quiet (q : Select) : (c.quiet.run q).rows = (c.run q).rows := rfl

@[simp] theorem firsts_quiet (q : Select) : c.quiet.firsts q = c.firsts q := rfl

@[simp] theorem unresolved_quiet : c.quiet.unresolved = c.unresolved.quiet := rfl

mutual

/-- `eval` does not tell a subquery that fails from one without rows. -/
theorem eval_quiet : ∀ (c : Ectx) (e : Expr), eval L c.quiet e = eval L c e
  | c, .literal _ | c, .null | c, .column _ _ | c, .param _ | c, .star | c, .subquery _ | c, .exists _
  | c, .agg _ _ _ | c, .window _ _ _ _ _ => rfl
  | c, .unary _ left | c, .cast left _ => by simp only [eval, eval_quiet c left]
  | c, .binary op left right => by
    cases op <;> simp only [eval, eval_quiet c left, eval_quiet c right]
  | c, .is _ left right | c, .glob _ left right => by simp only [eval, eval_quiet c left, eval_quiet c right]
  | c, .like _ left right escape => by
    simp only [eval, eval_quiet c left, eval_quiet c right, unresolved_quiet,
      evalOption_quiet c.unresolved escape]
  | c, .between _ left lo hi => by simp only [eval, eval_quiet c left, eval_quiet c lo, eval_quiet c hi]
  | c, .inList _ left args => by simp only [eval, eval_quiet c left, evalList_quiet c args]
  | c, .inQuery _ left q => by simp only [eval, eval_quiet c left, firsts_quiet]
  | c, .case base args els => by
    simp only [eval, evalOption_quiet c base, evalOption_quiet c els, evalWhens_quiet c _ args]
  | c, .func _ args => by simp only [eval, evalList_quiet c args]

theorem evalList_quiet : ∀ (c : Ectx) (es : List Expr), evalList L c.quiet es = evalList L c es
  | _, [] => rfl
  | c, e :: es => by simp only [evalList, eval_quiet c e, evalList_quiet c es]

theorem evalOption_quiet : ∀ (c : Ectx) (e : Option Expr), evalOption L c.quiet e = evalOption L c e
  | _, none => rfl
  | c, some e => by simp only [evalOption, eval_quiet c e]

theorem evalWhens_quiet : ∀ (c : Ectx) (base : Option Value) (es : List Expr),
    evalWhens L c.quiet base es = evalWhens L c base es
  | _, _, [] => rfl
  | _, _, [_] => rfl
  | c, base, w :: v :: rest => by
    simp only [evalWhens, eval_quiet c w, eval_quiet c v, evalWhens_quiet c base rest]

end

end Quiet

section Statement

variable (S : SubEnv)

theorem expr_quiet (e : Expr) : S.quiet.expr e = S.expr e := by
  have hfn : ∀ db vals, (eval S.lib (S.quiet.ctx db e.columns vals) e).2 =
      (eval S.lib (S.ctx db e.columns vals) e).2 :=
    fun db vals => congrArg Prod.snd (eval_quiet (S.ctx db e.columns vals) e)
  exact congrArg (StmtExpr.mk _) (funext fun db => funext (hfn db))

theorem compile_quiet (select : Tables → Select → Except Status (List Row)) (st : SqlStmt) :
    st.compile S.quiet select = st.compile S select := by
  have hexpr : S.quiet.expr = S.expr := funext (expr_quiet S)
  have hret : S.quiet.retItem = S.retItem := by
    funext e
    cases e <;> simp only [SubEnv.retItem, hexpr]
  have hsets : S.quiet.sets = S.sets := by
    funext sets
    simp only [SubEnv.sets, hexpr]
  have hconflict : S.quiet.conflict = S.conflict := by
    funext u
    cases u <;> simp only [SubEnv.conflict, hexpr, hsets]
  have hsource : S.quiet.source select = S.source select := by
    funext src
    cases src <;> simp only [SubEnv.source, hexpr]
  cases st <;> simp only [SqlStmt.compile, hexpr, hret, hsets, hconflict, hsource]

/-- A statement, with no rows for the subqueries of its expressions that fail. -/
def SqlStmt.execQuiet (S : SubEnv) (c : StmtCtx) (db : Tables) (st : SqlStmt) : Outcome :=
  (st.compile S.quiet S.select).exec c db

/-- A statement does what it would do if they had no rows. -/
theorem exec_quiet (c : StmtCtx) (db : Tables) (st : SqlStmt) : st.exec S c db = st.execQuiet S c db := by
  rw [SqlStmt.exec, SqlStmt.execQuiet, compile_quiet]

end Statement

/-- A statement that failed and changed no row. -/
def Fails (db : Tables) (o : Outcome) : Prop := o.rc ≠ .ok ∧ o.work.db = db

/-- **When the error of a subquery is the error of the statement.** Just when no subquery fails, or the
statement would fail, and change no row, if those that do had no rows. -/
theorem subquery_errors_iff (S : SubEnv) (c : StmtCtx) (db : Tables) (st : SqlStmt) :
    (st.errors S c db ≠ [] → Fails db (st.exec S c db)) ↔
      st.errors S c db = [] ∨ Fails db (st.execQuiet S c db) := by
  rw [exec_quiet]
  exact imp_iff_not_or.trans (or_congr_left not_ne_iff)

/-- `SELECT * FROM missing`. -/
def selectMissing : Select :=
  .mk [] false false [.star] [none] [.mk (some "missing".toUTF8.toList) none none none .none none [] false]
    none [] none [] [] none none none none

/-- Subqueries fail. -/
def failingEnv : SubEnv :=
  ⟨⟨columnEnv.lib, fun a _ => a, fun _ _ => .done .error .null⟩, [], fun _ _ _ => ⟨.error .error, []⟩⟩

/-- **`DELETE FROM t WHERE NOT EXISTS (SELECT * FROM missing)`.** The subquery fails, the statement does
not, and the row is gone. -/
theorem failed_subquery_deletes :
    let st := SqlStmt.delete [116] (some (.unary .not (.exists selectMissing))) none
    let t : Tables := [⟨{ TableDef.new [116] with cols := [intColumn [97]] }, .empty⟩]
    let db := ((RowStmt.insert (insertValues [116] [.int 1])).exec firstCtx t).work.db
    let o := st.exec failingEnv firstCtx db
    st.errors failingEnv firstCtx db = [.error] ∧ o.rc = .ok ∧ o.work.changes = 1 ∧
      (engScan firstMgr firstTxn (db.data 0) 0).2.length = 1 ∧
      (engScan firstMgr firstTxn (o.work.db.data 0) 0).2 = [] := by
  decide +kernel

end Tdb.Sql
