import TransactionDB.Sql.Statement
import TransactionDB.Storage.CommitComplete

/-!
# TransactionDB — the engine calls of a statement

A statement changes rows only by calls of the engine, one after the other, up to the first that
fails. `Runs` is such a sequence, with a condition on each call in the state it is made in, and
`Origin` lists the calls that the source makes, with what is known where it makes them.
`RowStmt.exec_runs` says that there are no others. An invariant of the tables is then shown for one
call and carried over a whole statement by `Runs.invariant`.

* `Runs.andThen`, `Runs.forEach`: composition.
* `Runs.keepsDefns`, `Runs.logs`: definitions do not change, and the log has the calls that worked.
-/

namespace Tdb.Exec

open List

variable {t : TableDef} {row : Row}

/-! ## Sequences of calls -/

/-- From `w`, calls that satisfy `Q` lead to the outcome. -/
inductive Runs (txn : UInt64) (Q : Work → Call → Prop) : Work → Outcome → Prop
  | stop (w : Work) (rc : Status) (msg : Option SqlMsg) : Runs txn Q w ⟨rc, msg, w⟩
  /-- Counters and the result changed. -/
  | quiet {w w' : Work} {o : Outcome} (hdb : w'.db = w.db) (hstored : w'.stored = w.stored)
      (h : Runs txn Q w' o) : Runs txn Q w o
  | call {w : Work} {call : Call} {o : Outcome} (hq : Q w call) (hok : (w.call txn call).rc = .ok)
      (h : Runs txn Q (w.call txn call).work o) : Runs txn Q w o
  | failed {w : Work} {call : Call} (hq : Q w call) (herr : (w.call txn call).rc ≠ .ok) :
      Runs txn Q w (w.call txn call)

section Runs

variable {txn : UInt64} {Q : Work → Call → Prop} {w : Work} {o : Outcome}

theorem Runs.single {call : Call} (hq : Q w call) : Runs txn Q w (w.call txn call) := by
  by_cases hok : (w.call txn call).rc = .ok
  · exact .call hq hok (.stop _ _ _)
  · exact .failed hq hok

/-- What follows a step that worked starts where the step ended. -/
theorem Runs.andThen {f : Work → Outcome} (h : Runs txn Q w o)
    (hf : o.rc = .ok → Runs txn Q o.work (f o.work)) : Runs txn Q w (o.andThen f) := by
  induction h with
  | stop w rc msg =>
    unfold Outcome.andThen
    split
    · exact hf ‹_›
    · exact .stop w rc msg
  | quiet hdb hstored _ ih => exact .quiet hdb hstored (ih hf)
  | call hq hok _ ih => exact .call hq hok (ih hf)
  | failed hq herr =>
    unfold Outcome.andThen
    rw [if_neg herr]
    exact .failed hq herr

/-- A loop whose body makes such calls, wherever it starts. -/
theorem Runs.forEach {α : Type} {body : Work → α → Outcome} : ∀ {xs : List α} {w : Work},
    (∀ w, ∀ x ∈ xs, Runs txn Q w (body w x)) → Runs txn Q w (forEach body w xs) := by
  intro xs
  induction xs with
  | nil => exact fun _ => .stop _ _ _
  | cons x xs ih =>
    intro w hbody
    refine (hbody w x mem_cons_self).andThen fun _ => ?_
    exact ih fun w x hx => hbody w x (mem_cons_of_mem _ hx)

/-- **Invariants.** What every call keeps, and what does not depend on counters and results, holds
at the end. A call that fails counts as well. -/
theorem Runs.invariant {I : Work → Prop} (h : Runs txn Q w o)
    (hquiet : ∀ w w' : Work, w'.db = w.db → w'.stored = w.stored → I w → I w')
    (hcall : ∀ w call, Q w call → I w → I (w.call txn call).work) (hw : I w) : I o.work := by
  induction h with
  | stop => exact hw
  | quiet hdb hstored _ ih => exact ih (hquiet _ _ hdb hstored hw)
  | call hq _ _ ih => exact ih (hcall _ _ hq hw)
  | failed hq _ => exact hcall _ _ hq hw

end Runs

/-! ## One call -/

section Tables

variable {db : Tables} {i j : Nat}

@[simp] theorem Tables.length_setData (tab : Table) : (db.setData i tab).length = db.length :=
  length_modify _ _ _

theorem Tables.getElem?_setData (tab : Table) :
    (db.setData i tab)[j]? = if i = j then db[j]?.map fun e => { e with data := tab } else db[j]? := by
  unfold Tables.setData
  rw [getElem?_modify]
  split
  · rfl
  · simp

@[simp] theorem Tables.defn_setData (tab : Table) : (db.setData i tab).defn j = db.defn j := by
  unfold Tables.defn
  rw [Tables.getElem?_setData]
  split
  · rw [Option.map_map]
    rfl
  · rfl

theorem Tables.data_setData (tab : Table) :
    (db.setData i tab).data j = if i = j ∧ i < db.length then tab else db.data j := by
  unfold Tables.data
  rw [Tables.getElem?_setData]
  by_cases hij : i = j
  · subst hij
    by_cases hi : i < db.length
    · rw [if_pos rfl, if_pos ⟨rfl, hi⟩, getElem?_eq_getElem hi]
      rfl
    · rw [if_pos rfl, if_neg (fun h => hi h.2), getElem?_eq_none (by omega)]
      rfl
  · rw [if_neg hij, if_neg (fun h => hij h.1)]

@[simp] theorem Tables.find_setData (tab : Table) (name : Bytes) :
    (db.setData i tab).find name = db.find name := by
  have hpred : ∀ (l : List Entry) (k : Nat),
      (List.modify l k fun e => { e with data := tab }).findIdx? (fun e => sameName e.defn.name name)
        = l.findIdx? (fun e => sameName e.defn.name name) := by
    intro l
    induction l with
    | nil => intro k; cases k <;> rfl
    | cons e l ih =>
      intro k
      cases k with
      | zero => rfl
      | succ k => rw [modify_succ_cons, findIdx?_cons, findIdx?_cons, ih]
  exact hpred db i

@[simp] theorem Tables.parts_setData (tab : Table) (t : TableDef) :
    (db.setData i tab).parts j t = db.parts j t := by
  unfold Tables.parts
  simp only [Tables.find_setData]

theorem Tables.find_lt {name : Bytes} (h : db.find name = some i) : i < db.length :=
  (findIdx?_eq_some_iff_getElem.mp h).1

/-- The tables that hold rows are tables of the database. -/
theorem Tables.parts_lt (hi : i < db.length) (h : j ∈ db.parts i t) : j < db.length := by
  unfold Tables.parts at h
  split at h
  · obtain ⟨k, -, hk⟩ := mem_filterMap.mp h
    exact Tables.find_lt hk
  · rw [mem_singleton.mp h]
    exact hi

/-- The child that a row goes to is one of those. -/
theorem partitionPickChild_mem (hp : t.isHashPartitioned = true)
    (h : partitionPickChild db t row = .ok j) : j ∈ db.parts i t := by
  unfold partitionPickChild at h
  unfold Tables.parts
  rw [if_pos hp]
  split at h
  · cases h
  · rename_i hash _
    dsimp only at h
    split at h
    · cases h
    · rename_i ci hci
      cases h
      have hcount : 0 < t.partitionCount := by simpa using (of_decide_eq_true hp).2
      exact mem_filterMap.mpr ⟨_, mem_range.mpr (Nat.mod_lt _ hcount), hci⟩

theorem storeTarget_mem (h : storeTarget db i t row = .ok j) :
    j ∈ db.parts i t := by
  unfold storeTarget at h
  split at h
  · exact partitionPickChild_mem ‹_› h
  · cases h
    unfold Tables.parts
    rw [if_neg ‹_›]
    exact mem_singleton_self _

end Tables

section Call

variable {txn : UInt64} {w : Work} {call : Call}

theorem Work.call_db : (w.call txn call).work.db = w.db.setData call.table (call.exec txn w.db).2 := rfl

@[simp] theorem Work.call_defn (j : Nat) : (w.call txn call).work.db.defn j = w.db.defn j :=
  Tables.defn_setData _

@[simp] theorem Work.call_length : (w.call txn call).work.db.length = w.db.length :=
  Tables.length_setData _

@[simp] theorem Work.call_parts (j : Nat) (t : TableDef) :
    (w.call txn call).work.db.parts j t = w.db.parts j t := Tables.parts_setData _ _

theorem Work.call_stored : (w.call txn call).work.stored =
    if (w.call txn call).rc = .ok then w.stored ++ [call] else w.stored := rfl

end Call

/-- The definitions of two states are the same. -/
structure SameDefns (db db' : Tables) : Prop where
  length : db'.length = db.length
  defn : ∀ j, db'.defn j = db.defn j
  parts : ∀ j t, db'.parts j t = db.parts j t

theorem SameDefns.refl (db : Tables) : SameDefns db db := ⟨rfl, fun _ => rfl, fun _ _ => rfl⟩

section RunsFacts

variable {txn : UInt64} {Q : Work → Call → Prop} {w : Work} {o : Outcome}

/-- Each call finds the definitions that the statement found. -/
theorem Runs.keepsDefns (h : Runs txn Q w o) :
    Runs txn (fun w' call => Q w' call ∧ SameDefns w.db w'.db) w o := by
  have gen : ∀ {w1 : Work} {o : Outcome}, Runs txn Q w1 o → SameDefns w.db w1.db →
      Runs txn (fun w' call => Q w' call ∧ SameDefns w.db w'.db) w1 o := by
    intro w1 o h
    induction h with
    | stop w1 rc msg => exact fun _ => .stop w1 rc msg
    | quiet hdb hstored _ ih => exact fun hs => .quiet hdb hstored (ih (hdb ▸ hs))
    | call hq hok _ ih =>
      intro hs
      refine .call ⟨hq, hs⟩ hok (ih ⟨?_, fun j => ?_, fun j t => ?_⟩)
      · rw [Work.call_length]; exact hs.length
      · rw [Work.call_defn]; exact hs.defn j
      · rw [Work.call_parts]; exact hs.parts j t
    | failed hq herr => exact fun hs => .failed ⟨hq, hs⟩ herr
  exact gen h (SameDefns.refl _)

/-- The log only grows. -/
theorem Runs.stored_prefix (h : Runs txn Q w o) : w.stored <+: o.work.stored := by
  refine h.invariant (I := fun w' => w.stored <+: w'.stored) ?_ ?_ (List.prefix_refl _)
  · intro w1 w2 _ hstored h1
    rw [hstored]
    exact h1
  · intro w1 call _ h1
    rw [Work.call_stored]
    split
    · exact h1.trans (List.prefix_append _ _)
    · exact h1

/-- A call that worked is next in the log. -/
theorem Runs.logs (h : Runs txn Q w o) : Runs txn (fun w' call => Q w' call ∧
    ((w'.call txn call).rc = .ok → w'.stored ++ [call] <+: o.work.stored)) w o := by
  have gen : ∀ {w1 : Work} {o1 : Outcome}, Runs txn Q w1 o1 → o1.work.stored <+: o.work.stored →
      Runs txn (fun w' call => Q w' call ∧
        ((w'.call txn call).rc = .ok → w'.stored ++ [call] <+: o.work.stored)) w1 o1 := by
    intro w1 o1 h1 hsub
    induction h1 with
    | stop w1 rc msg => exact .stop w1 rc msg
    | quiet hdb hstored _ ih => exact .quiet hdb hstored (ih hsub)
    | @call w1 call o1 hq hok hrest ih =>
      refine .call ⟨hq, fun _ => ?_⟩ hok (ih hsub)
      have hpre := hrest.stored_prefix
      rw [Work.call_stored, if_pos hok] at hpre
      exact hpre.trans hsub
    | failed hq herr => exact .failed ⟨hq, fun hok => absurd hok herr⟩ herr
  exact gen h (List.prefix_refl _)

theorem mem_of_begins_snoc {α : Type} {l l' : List α} {x : α} (h : l ++ [x] <+: l') : x ∈ l' :=
  h.subset (mem_append_right _ (mem_singleton_self x))

end RunsFacts

/-! ## The calls that statements make -/

/-- The statement collects this row and its condition holds when the loop reaches it. -/
structure Picked (c : StmtCtx) (db : Tables) (p : ChangePlan) (w : Work) (r : MatRow) : Prop where
  collected : ∃ rows, matRid c db p.i p.t = .ok rows ∧ r ∈ rows
  cond : whereTrue w.db r.row p.cond = true

/-- The changed row, finished. -/
structure Changed (c : StmtCtx) (db : Tables) (a : Update) (p : ChangePlan) (w : Work) (r : MatRow)
    (full : Row) : Prop where
  plan : planChange c db "UPDATE".toUTF8.toList a.table a.sets a.cond a.returning = .ok p
  picked : Picked c db p w r
  finish : finalizeRow c.env p.t (updateSets w.db r.row p.sets) = .ok full

/-- A row that `INSERT` has finished, from `row`, and the table it goes to. -/
structure Placed (c : StmtCtx) (p : InsertPlan) (w : Work) (row full : Row) (target : Nat) : Prop where
  finish : finalizeRow c.env p.t row = .ok full
  target : storeTarget w.db p.i p.t full = .ok target

/-- The calls of a statement that starts on the tables `db`, in the state they are made in. -/
inductive Origin (c : StmtCtx) (db : Tables) : RowStmt → Work → Call → Prop
  /-- A new row. -/
  | insert {a : Insert} {p : InsertPlan} {w : Work} {full : Row} {target : Nat} (src : Row)
      (hplan : planInsert c db a = .ok p)
      (hfree : insertConflict c p w (insertInput c p w src).1 = none)
      (hplaced : Placed c p w (insertInput c p w src).2 full target) :
      Origin c db (.insert a) w ⟨.insert, target, (insertInput c p w src).1,
        full.take (w.db.defn target).cols.length⟩
  /-- `OR REPLACE`. -/
  | replace {a : Insert} {p : InsertPlan} {w : Work} {full : Row} {target : Nat} {ex : Bytes} (src : Row)
      (hplan : planInsert c db a = .ok p)
      (hfound : insertConflict c p w (insertInput c p w src).1 = some ex)
      (hplaced : Placed c p w (insertInput c p w src).2 full target) :
      Origin c db (.insert a) w ⟨.update, target, (insertInput c p w src).1,
        full.take (w.db.defn target).cols.length⟩
  /-- `ON CONFLICT DO UPDATE`. -/
  | upsert {a : Insert} {p : InsertPlan} {w : Work} {full : Row} {target : Nat} {ex : Bytes}
      {sets : List (Nat × BoundStmtExpr)} {cond : Option BoundStmtExpr} (src : Row)
      (hplan : planInsert c db a = .ok p) (hupsert : p.upsert = some (.doUpdate sets cond))
      (hfound : insertConflict c p w (insertInput c p w src).1 = some ex)
      (hplaced : Placed c p w (upsertSets w.db (conflictRow p ex) sets) full target) :
      Origin c db (.insert a) w ⟨.update, target, (insertInput c p w src).1,
        full.take (w.db.defn target).cols.length⟩
  /-- A changed row that stays in its table. -/
  | update {a : Update} {p : ChangePlan} {w : Work} {r : MatRow} {full : Row}
      (hchanged : Changed c db a p w r full)
      (hstays : p.t.isHashPartitioned = true → partitionPickChild w.db p.t full = .ok r.src) :
      Origin c db (.update a) w ⟨.update, r.src, r.rowid, full⟩
  /-- A changed row that belongs to another child leaves its own. -/
  | moveOut {a : Update} {p : ChangePlan} {w : Work} {r : MatRow} {full : Row} {target : Nat}
      (hchanged : Changed c db a p w r full) (hpart : p.t.isHashPartitioned = true)
      (htarget : partitionPickChild w.db p.t full = .ok target) (hmoves : target ≠ r.src) :
      Origin c db (.update a) w ⟨.remove, r.src, r.rowid, []⟩
  /-- And enters the other. -/
  | moveIn {a : Update} {p : ChangePlan} {w w' : Work} {r : MatRow} {full : Row} {target : Nat}
      (hchanged : Changed c db a p w r full) (hpart : p.t.isHashPartitioned = true)
      (htarget : partitionPickChild w.db p.t full = .ok target) (hmoves : target ≠ r.src)
      (hleft : w' = (w.call c.txn.id ⟨.remove, r.src, r.rowid, []⟩).work) :
      Origin c db (.update a) w' ⟨.insert, target, r.rowid, full⟩
  | delete {a : Delete} {p : ChangePlan} {w : Work} {r : MatRow}
      (hplan : planChange c db "DELETE".toUTF8.toList a.table [] a.cond a.returning = .ok p)
      (hpicked : Picked c db p w r) :
      Origin c db (.delete a) w ⟨.remove, r.src, r.rowid, []⟩
  /-- The rows that `TRUNCATE` found in one of the tables when it came to it. -/
  | truncate {name : Bytes} {i j : Nat} {w w' : Work} {rows : List (UInt64 × Bytes)}
      {e : UInt64 × Bytes} (hfind : db.find name = some i) (hj : j ∈ db.parts i (db.defn i))
      (hrows : engScan c.mgr c.txn (w.db.data j) 0 = (.ok, rows)) (he : e ∈ rows) :
      Origin c db (.truncate name false) w' ⟨.remove, j, e.1, []⟩

section Origins

variable {c : StmtCtx} {db : Tables} {w : Work} {txn : UInt64} {Q : Work → Call → Prop}

/-- Counters and rows of RETURNING do not matter. -/
theorem Runs.done {f : Work → Work} (hdb : (f w).db = w.db) (hstored : (f w).stored = w.stored) :
    Runs txn Q w ⟨.ok, none, f w⟩ := .quiet hdb hstored (.stop _ _ _)

@[simp] theorem Work.emit_db (row : Row) (es : Option (List BoundStmtExpr)) :
    (w.emit row es).db = w.db := by cases es <;> rfl

@[simp] theorem Work.emit_stored (row : Row) (es : Option (List BoundStmtExpr)) :
    (w.emit row es).stored = w.stored := by cases es <;> rfl

/-- `store_full` makes one call, for a finished row. -/
theorem storeFull_runs {i : Nat} {rowid : UInt64} {isUpdate : Bool} {done : Work → Row → Work}
    (hdone : ∀ w full, (done w full).db = w.db ∧ (done w full).stored = w.stored)
    (hQ : ∀ full target, finalizeRow c.env t row = .ok full → storeTarget w.db i t full = .ok target →
      Q w ⟨if isUpdate then .update else .insert, target, rowid,
        full.take (w.db.defn target).cols.length⟩) :
    Runs c.txn.id Q w (storeFull c w i t row rowid isUpdate done) := by
  unfold storeFull
  split
  · exact .stop _ _ _
  · rename_i full hfull
    split
    · exact .stop _ _ _
    · rename_i target htarget
      refine (Runs.single (hQ full target hfull htarget)).andThen fun _ => ?_
      exact Runs.done (f := fun w => done w full) (hdone _ _).1 (hdone _ _).2

theorem insertRowVals_runs {a : Insert} {p : InsertPlan} (hplan : planInsert c db a = .ok p)
    (w : Work) (src : Row) :
    Runs c.txn.id (Origin c db (.insert a)) w (insertRowVals c p w src) := by
  have hchanged : ∀ (w : Work) (row : Row),
      (w.changed row p.returning).db = w.db ∧ (w.changed row p.returning).stored = w.stored :=
    fun w row => ⟨Work.emit_db _ _, Work.emit_stored _ _⟩
  unfold insertRowVals
  dsimp only
  split
  · rename_i hfree
    exact storeFull_runs hchanged fun full target hfull htarget =>
      .insert src hplan hfree ⟨hfull, htarget⟩
  · rename_i ex hfound
    split
    · exact .stop _ _ _
    · exact .stop _ _ _
    · exact storeFull_runs hchanged fun full target hfull htarget =>
        .replace src hplan hfound ⟨hfull, htarget⟩
    · rename_i sets cond hupsert _ _
      split
      · exact storeFull_runs hchanged fun full target hfull htarget =>
          .upsert src hplan hupsert hfound ⟨hfull, htarget⟩
      · exact .stop _ _ _
    · exact .stop _ _ _

theorem execInsert_runs (a : Insert) :
    Runs c.txn.id (Origin c db (.insert a)) (.start db) (execInsert c db a) := by
  unfold execInsert
  dsimp only
  split
  · exact .stop _ _ _
  · rename_i p hplan
    split
    · split
      · exact .stop _ _ _
      · exact Runs.forEach fun w src _ => insertRowVals_runs hplan w src
    · split
      · exact .stop _ _ _
      · exact Runs.forEach fun w es _ => insertRowVals_runs hplan w _

theorem storeChanged_runs {a : Update} {p : ChangePlan} {r : MatRow} {full : Row}
    (hchanged : Changed c db a p w r full) :
    Runs c.txn.id (Origin c db (.update a)) w (storeChanged c w p r full) := by
  unfold storeChanged
  dsimp only
  split
  · rename_i hpart
    split
    · exact .stop _ _ _
    · rename_i target htarget
      split
      · rename_i hsame
        exact Runs.single (.update hchanged fun _ => hsame ▸ htarget)
      · rename_i hmoves
        refine (Runs.single (.moveOut hchanged hpart htarget hmoves)).andThen fun _ => ?_
        exact Runs.single (.moveIn hchanged hpart htarget hmoves rfl)
  · rename_i hpart
    exact Runs.single (.update hchanged fun h => absurd h hpart)

theorem execUpdate_runs (a : Update) :
    Runs c.txn.id (Origin c db (.update a)) (.start db) (execUpdate c db a) := by
  unfold execUpdate
  dsimp only
  split
  · exact .stop _ _ _
  · rename_i p hplan
    split
    · exact .stop _ _ _
    · rename_i rows hrows
      refine Runs.forEach fun w r hr => ?_
      unfold updateRow
      split
      · rename_i hcond
        split
        · exact .stop _ _ _
        · rename_i full hfull
          refine (storeChanged_runs ⟨hplan, ⟨⟨rows, hrows, hr⟩, hcond⟩, hfull⟩).andThen fun _ => ?_
          exact Runs.done (f := fun w => w.changed full p.returning) (Work.emit_db _ _)
            (Work.emit_stored _ _)
      · exact .stop _ _ _

theorem execDelete_runs (a : Delete) :
    Runs c.txn.id (Origin c db (.delete a)) (.start db) (execDelete c db a) := by
  unfold execDelete
  dsimp only
  split
  · exact .stop _ _ _
  · rename_i p hplan
    split
    · exact .stop _ _ _
    · rename_i rows hrows
      refine Runs.forEach fun w r hr => ?_
      unfold deleteRow
      split
      · rename_i hcond
        refine (Runs.single (.delete hplan ⟨⟨rows, hrows, hr⟩, hcond⟩)).andThen fun _ => ?_
        exact Runs.done (f := fun w => w.changed r.row p.returning) (Work.emit_db _ _)
          (Work.emit_stored _ _)
      · exact .stop _ _ _

theorem execTruncate_runs (name : Bytes) (restart : Bool) :
    Runs c.txn.id (Origin c db (.truncate name restart)) (.start db)
      (execTruncate c db name restart) := by
  unfold execTruncate
  dsimp only
  split
  · exact .stop _ _ _
  · rename_i i hfind
    cases restart with
    | true => exact .stop _ _ _
    | false =>
      refine Runs.forEach fun w j hj => ?_
      unfold truncateOne
      split
      · rename_i rows hrows
        refine Runs.forEach fun w' e he => ?_
        refine (Runs.single (.truncate hfind hj hrows he)).andThen fun _ => ?_
        exact Runs.done (f := fun w : Work => { w with changes := w.changes + 1 }) rfl rfl
      · exact .stop _ _ _

/-- **The calls of a statement are those listed.** -/
theorem RowStmt.exec_runs (c : StmtCtx) (db : Tables) (st : RowStmt) :
    Runs c.txn.id (Origin c db st) (.start db) (st.exec c db) := by
  cases st with
  | insert a => exact execInsert_runs a
  | update a => exact execUpdate_runs a
  | delete a => exact execDelete_runs a
  | truncate name restart => exact execTruncate_runs name restart

end Origins

/-! ## What is known where a call is made -/

section Known

variable {c : StmtCtx} {db : Tables}

/-- A computation that worked did so step by step. -/
theorem bind_ok {ε α β : Type} {x : Except ε α} {f : α → Except ε β} {b : β} (h : x >>= f = .ok b) :
    ∃ a, x = .ok a ∧ f a = .ok b := by
  cases x with
  | error e => cases h
  | ok a => exact ⟨a, rfl, h⟩

theorem Tables.lookup_ok {name : Bytes} {i : Nat} (h : db.lookup name = .ok i) :
    db.find name = some i := by
  unfold Tables.lookup at h
  split at h
  · cases h
  · rename_i hfind
    cases h
    exact hfind

theorem StmtCtx.allow_ok {priv table : Bytes} (h : c.allow priv table = .ok ()) :
    c.deny priv table = none := by
  unfold StmtCtx.allow at h
  split at h
  · cases h
  · assumption

/-- A plan is for the table that was named, and the privilege was there. -/
theorem planInsert_ok {a : Insert} {p : InsertPlan} (h : planInsert c db a = .ok p) :
    db.find a.table = some p.i ∧ p.t = db.defn p.i ∧
      c.deny "INSERT".toUTF8.toList a.table = none ∧ p.orAction = a.orAction ∧
      bindConflict p.t a.upsert = .ok p.upsert := by
  unfold planInsert at h
  obtain ⟨i, hi, h⟩ := bind_ok h
  obtain ⟨⟨⟩, hallow, h⟩ := bind_ok h
  obtain ⟨target, -, h⟩ := bind_ok h
  obtain ⟨returning, -, h⟩ := bind_ok h
  obtain ⟨upsert, hupsert, h⟩ := bind_ok h
  cases h
  exact ⟨Tables.lookup_ok hi, rfl, StmtCtx.allow_ok hallow, rfl, hupsert⟩

theorem planChange_ok {priv table : Bytes} {sets : List (Bytes × StmtExpr)} {cond : Option StmtExpr}
    {returning : Option (List RetItem)} {p : ChangePlan}
    (h : planChange c db priv table sets cond returning = .ok p) :
    db.find table = some p.i ∧ p.t = db.defn p.i ∧ c.deny priv table = none ∧
      sets.mapM (bindSet p.t) = .ok p.sets := by
  unfold planChange at h
  obtain ⟨i, hi, h⟩ := bind_ok h
  obtain ⟨⟨⟩, hallow, h⟩ := bind_ok h
  obtain ⟨cond, -, h⟩ := bind_ok h
  obtain ⟨sets, hsets, h⟩ := bind_ok h
  obtain ⟨returning, -, h⟩ := bind_ok h
  cases h
  exact ⟨Tables.lookup_ok hi, rfl, StmtCtx.allow_ok hallow, hsets⟩

theorem mem_mapM_ok {ε α β : Type} {f : α → Except ε β} : ∀ {xs : List α} {ys : List β},
    xs.mapM f = .ok ys → ∀ y ∈ ys, ∃ x ∈ xs, f x = .ok y := by
  intro xs
  induction xs with
  | nil =>
    intro ys h y hy
    cases h
    exact absurd hy not_mem_nil
  | cons x xs ih =>
    intro ys h y hy
    rw [mapM_cons] at h
    obtain ⟨y0, hy0, h⟩ := bind_ok h
    obtain ⟨ys0, hys0, h⟩ := bind_ok h
    cases h
    rcases mem_cons.mp hy with rfl | hmem
    · exact ⟨x, mem_cons_self, hy0⟩
    · obtain ⟨x', hx', heq⟩ := ih hys0 y hmem
      exact ⟨x', mem_cons_of_mem _ hx', heq⟩

theorem mem_mapM_some {α β : Type} {f : α → Option β} : ∀ {xs : List α} {ys : List β},
    xs.mapM f = some ys → ∀ y ∈ ys, ∃ x ∈ xs, f x = some y := by
  intro xs
  induction xs with
  | nil =>
    intro ys h y hy
    cases h
    exact absurd hy not_mem_nil
  | cons x xs ih =>
    intro ys h y hy
    rw [mapM_cons] at h
    obtain ⟨y0, hy0, h⟩ := Option.bind_eq_some_iff.mp h
    obtain ⟨ys0, hys0, h⟩ := Option.bind_eq_some_iff.mp h
    cases h
    rcases mem_cons.mp hy with rfl | hmem
    · exact ⟨x, mem_cons_self, hy0⟩
    · obtain ⟨x', hx', heq⟩ := ih hys0 y hmem
      exact ⟨x', mem_cons_of_mem _ hx', heq⟩

theorem bindSet_ok {s : Bytes × StmtExpr} {b : Nat × BoundStmtExpr} (h : bindSet t s = .ok b) :
    t.findColumn s.1 = some b.1 := by
  unfold bindSet at h
  split at h
  · cases h
  · rename_i ci hci
    obtain ⟨e, -, h⟩ := bind_ok h
    cases h
    exact hci

theorem length_padRow {n : Nat} {rec : Bytes} (h : padRow n rec = some row) :
    row.length = n := by
  unfold padRow at h
  split at h
  · cases h
    rw [length_map, length_range]
  · cases h

/-- A row that was collected is one of the rows of the table. -/
theorem matRid_mem {i : Nat} {rows : List MatRow} {r : MatRow} (h : matRid c db i t = .ok rows)
    (hr : r ∈ rows) :
    r.src ∈ db.parts i t ∧ ∃ rec, (r.rowid, rec) ∈ (engScan c.mgr c.txn (db.data r.src) 0).2 ∧
      padRow t.cols.length rec = some r.row := by
  unfold matRid at h
  split at h
  · cases h
  · rename_i parts hparts
    cases h
    obtain ⟨part, hpart, hr⟩ := mem_flatten.mp hr
    obtain ⟨src, hsrc, hone⟩ := mem_mapM_ok hparts part hpart
    unfold matRidOne at hone
    dsimp only at hone
    split at hone
    · cases hone
    · rename_i found hfound
      split at hone
      · cases hone
        obtain ⟨e, he, hpad⟩ := mem_mapM_some hfound r hr
        obtain ⟨row, hrow, rfl⟩ := Option.map_eq_some_iff.mp hpad
        exact ⟨hsrc, e.2, he, hrow⟩
      · cases hone

theorem length_placeValues : ∀ (target : List Nat) (src row : Row),
    (placeValues row target src).length = row.length := by
  intro target
  induction target with
  | nil => exact fun _ _ => by rw [placeValues]; simp
  | cons ci target ih =>
    intro src row
    cases src with
    | nil => rfl
    | cons v src => rw [placeValues, ih, length_set]

theorem length_stampPeriod (t : TableDef) (txn : UInt64) (row : Row) :
    (stampPeriod t txn row).length = row.length := by
  unfold stampPeriod
  split
  · cases t.rowStartCol <;> cases t.rowEndCol <;> simp
  · rfl

theorem length_assignRowid (tab : Table) (pkc : Option Nat) (row : Row) :
    (assignRowid tab pkc row).2.length = row.length := by
  unfold assignRowid
  split
  · rfl
  · split
    · rfl
    · exact length_set

theorem length_insertInput (p : InsertPlan) (w : Work) (src : Row) :
    (insertInput c p w src).2.length = p.t.cols.length := by
  unfold insertInput
  dsimp only
  rw [length_stampPeriod, length_assignRowid, length_placeValues, defaultRow, length_map]

theorem length_conflictRow (p : InsertPlan) (ex : Bytes) :
    (conflictRow p ex).length = p.t.cols.length := by
  unfold conflictRow
  cases hpad : padRow p.t.cols.length ex with
  | none => exact length_replicate
  | some row => exact length_padRow hpad

theorem length_upsertSets (db : Tables) : ∀ (sets : List (Nat × BoundStmtExpr)) (row : Row),
    (upsertSets db row sets).length = row.length := by
  intro sets
  induction sets with
  | nil => exact fun _ => rfl
  | cons s sets ih =>
    intro row
    exact (ih _).trans length_set

theorem length_updateSets (db : Tables) (sets : List (Nat × BoundStmtExpr)) (row : Row) :
    (updateSets db row sets).length = row.length := by
  have gen : ∀ (sets : List (Nat × BoundStmtExpr)) (full : Row),
      (sets.foldl (fun full s => full.set s.1 (s.2.eval db row)) full).length = full.length := by
    intro sets
    induction sets with
    | nil => exact fun _ => rfl
    | cons s sets ih => exact fun full => (ih _).trans length_set
  exact gen sets row

section

variable {st : RowStmt} {w : Work} {call : Call} (h : Origin c db st w call) (hs : SameDefns db w.db)

include h hs

/-- Calls are made on the tables that hold the rows of the table that is named. -/
theorem Origin.part :
    ∃ j, db.find st.table = some j ∧ call.table ∈ db.parts j (db.defn j) := by
  have insertCase : ∀ {a : Insert} {p : InsertPlan} {row full : Row} {target : Nat},
      planInsert c db a = .ok p → Placed c p w row full target →
      ∃ j, db.find a.table = some j ∧ target ∈ db.parts j (db.defn j) := by
    intro a p row full target hplan hplaced
    obtain ⟨hfind, ht, -⟩ := planInsert_ok hplan
    refine ⟨p.i, hfind, ?_⟩
    rw [← ht, ← hs.parts]
    exact storeTarget_mem hplaced.target
  have pickedCase : ∀ {priv table : Bytes} {sets : List (Bytes × StmtExpr)} {cond : Option StmtExpr}
      {returning : Option (List RetItem)} {p : ChangePlan} {w0 : Work} {r : MatRow},
      planChange c db priv table sets cond returning = .ok p → Picked c db p w0 r →
      ∃ j, db.find table = some j ∧ r.src ∈ db.parts j (db.defn j) := by
    intro priv table sets cond returning p w0 r hplan hpicked
    obtain ⟨hfind, ht, -⟩ := planChange_ok hplan
    obtain ⟨⟨rows, hrows, hr⟩, -⟩ := hpicked
    exact ⟨p.i, hfind, ht ▸ (matRid_mem hrows hr).1⟩
  cases h with
  | insert src hplan _ hplaced | replace src hplan _ hplaced | upsert src hplan _ _ hplaced =>
    exact insertCase hplan hplaced
  | update hchanged _ | moveOut hchanged => exact pickedCase hchanged.plan hchanged.picked
  | moveIn hchanged hpart htarget _ hleft =>
    obtain ⟨hfind, ht, -⟩ := planChange_ok hchanged.plan
    refine ⟨_, hfind, ?_⟩
    rw [← ht, ← hs.parts, hleft, Work.call_parts]
    exact partitionPickChild_mem hpart htarget
  | delete hplan hpicked => exact pickedCase hplan hpicked
  | truncate hfind hj => exact ⟨_, hfind, hj⟩

/-- A row that a statement stores was finished for the table it names; it is stored in one of the
tables that hold its rows, with as many columns as that has. -/
structure Finished (c : StmtCtx) (db : Tables) (j : Nat) (call : Call) (row full : Row) : Prop where
  length : row.length = (db.defn j).cols.length
  finish : finalizeRow c.env (db.defn j) row = .ok full
  target : call.table ∈ db.parts j (db.defn j)
  cells : call.row = full ∨ call.row = full.take (db.defn call.table).cols.length

theorem Origin.finished (hkind : call.kind ≠ .remove) :
    ∃ j row full, db.find st.table = some j ∧ Finished c db j call row full := by
  have insertCase : ∀ {a : Insert} {p : InsertPlan} {row full : Row} {target : Nat} {kind : CallKind}
      {rowid : UInt64}, planInsert c db a = .ok p → Placed c p w row full target →
      row.length = p.t.cols.length → ∃ j row' full', db.find a.table = some j ∧ Finished c db j
        ⟨kind, target, rowid, full.take (w.db.defn target).cols.length⟩ row' full' := by
    intro a p row full target kind rowid hplan hplaced hlen
    obtain ⟨hfind, ht, -⟩ := planInsert_ok hplan
    refine ⟨p.i, row, full, hfind, by rw [hlen, ht], ht ▸ hplaced.finish, ?_, ?_⟩
    · rw [← ht, ← hs.parts]
      exact storeTarget_mem hplaced.target
    · rw [hs.defn]
      exact Or.inr rfl
  have updateCase : ∀ {a : Update} {p : ChangePlan} {w0 : Work} {r : MatRow} {full : Row} {target : Nat}
      {kind : CallKind}, Changed c db a p w0 r full → (p.t.isHashPartitioned = true → SameDefns db w0.db ∧
        partitionPickChild w0.db p.t full = .ok target) → (p.t.isHashPartitioned ≠ true → target = r.src) →
      ∃ j row' full', db.find a.table = some j ∧
        Finished c db j ⟨kind, target, r.rowid, full⟩ row' full' := by
    intro a p w0 r full target kind hchanged hpick hstay
    obtain ⟨hfind, ht, -⟩ := planChange_ok hchanged.plan
    obtain ⟨⟨rows, hrows, hr⟩, -⟩ := hchanged.picked
    obtain ⟨hsrc, rec, -, hpad⟩ := matRid_mem hrows hr
    refine ⟨p.i, _, full, hfind, ?_, ht ▸ hchanged.finish, ?_, Or.inl rfl⟩
    · rw [length_updateSets, length_padRow hpad, ht]
    · rw [← ht]
      by_cases hpart : p.t.isHashPartitioned = true
      · obtain ⟨hs0, hpick⟩ := hpick hpart
        rw [← hs0.parts]
        exact partitionPickChild_mem hpart hpick
      · rw [hstay hpart]
        exact hsrc
  cases h with
  | insert src hplan _ hplaced | replace src hplan _ hplaced =>
    exact insertCase hplan hplaced (length_insertInput _ _ _)
  | upsert src hplan _ _ hplaced =>
    exact insertCase hplan hplaced ((length_upsertSets _ _ _).trans (length_conflictRow _ _))
  | update hchanged hstays =>
    exact updateCase hchanged (fun hp => ⟨hs, hstays hp⟩) fun _ => rfl
  | moveOut | delete | truncate => exact absurd rfl hkind
  | moveIn hchanged hpart htarget _ hleft =>
    refine updateCase hchanged (fun _ => ⟨⟨?_, fun j => ?_, fun j t => ?_⟩, htarget⟩) fun h => absurd hpart h
    · rw [← hs.length, hleft, Work.call_length]
    · rw [← hs.defn j, hleft, Work.call_defn]
    · rw [← hs.parts j t, hleft, Work.call_parts]

end

end Known

/-! ## Statements of different transactions -/

/-- A statement, the transaction it runs in, the manager as it finds it, and what is denied. -/
structure TxnStmt where
  mgr : TxnMgr
  txn : Txn
  deny : Bytes → Bytes → Option SqlMsg
  st : RowStmt

def TxnStmt.ctx (env : SqlEnv) (s : TxnStmt) : StmtCtx := ⟨env, s.mgr, s.txn, s.deny⟩

def TxnStmt.exec (env : SqlEnv) (db : Tables) (s : TxnStmt) : Outcome := s.st.exec (s.ctx env) db

/-! ## A small setting

The first transaction of a new database, and a parser that takes every text for the name of a
column. -/

def firstMgr : TxnMgr := ⟨freshPager, 0, 2, [(1, .active)], [1]⟩

def firstTxn : Txn := ⟨1, .snapshot, ⟨1, 2, [1]⟩, .active, true, []⟩

def columnEnv : SqlEnv where
  lib := ⟨fun _ => (0, 0), fun _ => [], fun _ => .error none, fun _ => false, fun _ => false⟩
  parse sql := .ok ⟨[sql], fun vs => vs.headD .null⟩

def firstCtx : StmtCtx := ⟨columnEnv, firstMgr, firstTxn, fun _ _ => none⟩

/-- An integer column. -/
def intColumn (name : Bytes) : Column := .init name (.plain .integer)

/-- A statement of the first transaction. -/
def firstStmt (st : RowStmt) : TxnStmt := ⟨firstMgr, firstTxn, fun _ _ => none, st⟩

/-- `INSERT INTO table VALUES (...)` of one row. -/
def insertValues (table : Bytes) (vals : Row) : Insert :=
  ⟨table, [], .values [vals.map fun v => ⟨[], fun _ _ => v⟩], .abort, none, none⟩

end Tdb.Exec
