import TransactionDB.Sql.DropObject
import TransactionDB.Sql.PagedStore

/-!
# TransactionDB — schema changes and rollback

The statements of `Ddl` on connections: the catalog tree and the storage are pages, which a rollback
takes back, while the objects that later statements find are in memory, which nothing takes back.
`tdb_txn_rollback` and `tdb_txn_rollback_to` of `src/txn/tdb_txn.c` do not know the catalog, and it
is loaded only when the database is opened.

`DdlStmt.Keeps` says for every statement when it leaves the visible objects as they are
(`visible_exec_iff`); `StmtKeeps` does so for every statement of a connection. What is visible after
`ROLLBACK` is what was visible before it (`rolled_back_ddl_iff`).
-/

namespace Tdb.Ddl

open Exec BTree List

/-- The objects in memory and the PL/SQL routines. -/
abbrev Memory := SchemaCache × List PlRoutine

/-- What later statements find: tables with their columns and indexes, views, routines and grants, in
no order. -/
@[ext] structure Visible where
  tables : Multiset TableDef
  views : Multiset ViewDef
  routines : Multiset Routine
  plsql : Multiset PlRoutine
  grants : Multiset AclEntry
  deriving DecidableEq

def visible (m : Memory) : Visible := ⟨m.1.tables, m.1.views, m.1.routines, m.2, m.1.acl⟩

variable {σ : Type}

def State.mem (d : State σ) : Memory := (d.cat.cache, d.plsql)

/-- The objects that the statements run on, from pages and memory. -/
def stateOf (s : Root × σ) (m : Memory) : State σ := ⟨⟨s.1, m.1⟩, m.2, s.2⟩

/-! ## Statements that leave the visible objects as they are -/

section Keeps

variable (E : DdlEngine σ) (d : State σ)

/-- The table that CREATE TABLE is about to make. -/
def newTable (ct : CreateTable σ) : Option TableDef :=
  match ct.asSelect with
  | some sel =>
    match sel d with
    | .error _ => none
    | .ok (cols, _) => (astToTable { ct with cols }).toOption
  | none => (astToTable ct).toOption

/-- CREATE INDEX is refused for this table. -/
def IndexRefused (t : TableDef) (ci : CreateIndex) : Prop :=
  ci.kind = .rtree ∧ (ci.cols.length ≠ 1 ∨ t.columnar) ∨
    match indexCols t ci.cols with
    | .error _ => True
    | .ok cols => (spatialRefused t ci cols).isSome

/-- DROP has nothing to drop, or cannot drop it. -/
def DropKeeps (s : Drop) : Prop :=
  match parseDrop s.word with
  | .table => ∀ t, d.cat.findTable s.name = some t → (E.dropTable d.store t).1 ≠ .ok
  | .index => ∀ i t pos ix, findIndex d.cat.cache s.name = some (i, t, pos) → t.indexes[pos]? = some ix →
      (E.dropIndex d.store ix).1 ≠ .ok
  | .view => d.cat.findView s.name = none
  | .tablespace => True

/-- The routine that CREATE ROUTINE makes, if it compiles and can be stored. The catalog has no
routine of its name, or this one. -/
def RoutineKeeps (cr : CreateRoutine) : Prop :=
  let r : Routine := ⟨cr.name, luaFunction cr, cr.isFunction, some cr.params.length⟩
  let pl : PlRoutine := ⟨cr.name, cr.source.getD [], cr.isFunction, cr.params.length⟩
  let old := d.cat.findRoutine cr.name
  let oldPl := d.plsql.find? fun r => sameName r.name cr.name
  let d' := if old.isSome then d.forget E fun c => c.dropRoutine cr.name else d
  if (old.isSome ∨ oldPl.isSome) ∧ cr.orReplace = false then True
  else if cr.isPlsql then
    old = none ∧ ((E.plsqlParse (cr.source.getD []) cr.params).isSome ∨ oldPl = some pl)
  else if (E.luaDefine cr.name (luaFunction cr)).isNone ∧
      (d'.catalog E fun c => c.addRoutine E.pageSize r).1 = .ok then old = some r
  else old = none

/-- The table that takes the place of `t`, if ALTER TABLE comes so far. -/
def alteredTable (t : TableDef) : Alter → Option TableDef
  | .addColumn col =>
    if (t.findColumn col.name).isSome then none
    else
      match E.addColumn d.store (t.addColumn (addedColumn col)) with
      | (.ok, t, _) => some { t with schemaVersion := t.schemaVersion + 1 }
      | (_, t, _) => some t
  | .renameColumn col newname =>
    (t.findColumn col).map fun ci =>
      { t with
        cols := t.cols.modify ci fun c => { c with name := newname }
        schemaVersion := t.schemaVersion + 1 }
  | .renameTable newname =>
    if (d.cat.findTable newname).isSome then none else some { t with name := newname }
  | .dropColumn col =>
    (t.findColumn col).bind fun ci =>
      if (dropRefused t ci col).isSome then none
      else
        match E.dropColumn d.store t ci with
        | (.ok, t, _) => some { t.dropColumn ci with schemaVersion := t.schemaVersion + 1 }
        | (_, t, _) => some t

/-- The privilege is there to be granted, or not there to be revoked. -/
def privKept (revoke : Bool) (grantee : Bytes) (kind : UInt8) (object : Bytes) (acl : List AclEntry)
    (priv : Bytes) : Bool :=
  if revoke then !acl.any (revokes (some grantee) (some priv) kind (some object))
  else acl.any (entryEqual · ⟨grantee, priv.map upperAscii, kind, some object⟩)

/-- All privileges are, up to the one at which the statement stops. -/
def PrivsKept (one : State σ → Bytes → Status × State σ) (kept : List AclEntry → Bytes → Bool) :
    List Bytes → State σ → Prop
  | [], _ => True
  | p :: ps, d =>
    kept d.cat.cache.acl p = true ∧ ((one d p).1 = .ok → PrivsKept one kept ps (one d p).2)

/-- One privilege of GRANT or REVOKE. -/
def grantStep (g : Grant) (d : State σ) (p : Bytes) : Status × State σ :=
  let (kind, object) := parseGrantObject g.object
  let grantee := g.grantee.getD "PUBLIC".toUTF8.toList
  if g.revoke then revokeOne E d grantee kind object p else grantOne E d grantee kind object p

/-- When a statement leaves the visible objects as they are. -/
def DdlStmt.Keeps : DdlStmt σ → Prop
  | .createTable ct =>
    (d.cat.findTable ct.name).isSome ∨ ∀ t, newTable d ct = some t → (d.makeTable E t).1 ≠ .ok
  | .createIndex ci => ∀ t, d.cat.findTable ci.table = some t → IndexRefused t ci
  | .drop s => DropKeeps E d s
  | .createView name selectSql materialized _ =>
    (d.cat.findView name).isSome ∨
      (d.catalog E fun c => c.addView E.pageSize ⟨name, selectSql, materialized, 0⟩).1 ≠ .ok
  | .createRoutine cr => RoutineKeeps E d cr
  | .alter table a => ∀ t t', d.cat.findTable table = some t → alteredTable E d t a = some t' → t' = t
  | .createTablespace _ _ _ => True
  | .grant g =>
    let (kind, object) := parseGrantObject g.object
    object = [] ∨ PrivsKept (grantStep E g)
      (privKept g.revoke (g.grantee.getD "PUBLIC".toUTF8.toList) kind object) (splitPrivs g.privs) d

end Keeps

/-! ## What the parts of a statement do to memory -/

section Effects

variable {E : DdlEngine σ} {d : State σ}

theorem forget_mem (drop : Catalog → Catalog) : (d.forget E drop).mem = ((drop d.cat).cache, d.plsql) := by
  unfold State.forget
  split <;> rfl

/-- An operation on the tree alone. -/
theorem catalog_mem_of_cache {op : Catalog → Status × Catalog} (hop : ∀ c, (op c).2.cache = c.cache) :
    (d.catalog E op).2.mem = d.mem := by
  unfold State.catalog
  split
  · exact Prod.ext (hop d.cat) rfl
  · rfl

/-- An operation on what is not visible. -/
theorem catalog_visible {op : Catalog → Status × Catalog}
    (hop : ∀ c pl, visible ((op c).2.cache, pl) = visible (c.cache, pl)) :
    visible (d.catalog E op).2.mem = visible d.mem := by
  unfold State.catalog
  split
  · exact hop d.cat d.plsql
  · rfl

theorem missing_mem (ifExists : Bool) (msg : DdlMsg) : (d.missing ifExists msg).db.mem = d.mem := by
  cases ifExists <;> rfl

/-- A record that is added changes memory if it could be written. -/
theorem catalog_add_mem (r : CatRecord) (f : SchemaCache → SchemaCache) :
    let out := d.catalog E fun c => c.add E.pageSize r f
    out.1 = .ok ∧ out.2.mem = (f d.cat.cache, d.plsql) ∨ out.1 ≠ .ok ∧ out.2.mem = d.mem := by
  simp only [State.catalog, Catalog.add]
  rcases E.catalogIo d.store with ⟨rc, store⟩
  cases rc with
  | ok =>
    rcases catalogPut E.pageSize d.cat.tree r with ⟨rc', tree⟩
    cases rc' with
    | ok => exact .inl ⟨rfl, rfl⟩
    | _ => exact .inr ⟨by simp, rfl⟩
  | _ => exact .inr ⟨by simp, rfl⟩

theorem updateTableAs_mem (name : Bytes) (t : TableDef) : (d.updateTableAs E name t).db.mem = d.mem := by
  have hop : ∀ c : Catalog, (c.updateTableAs E.pageSize name t).2.cache = c.cache := by
    intro c
    unfold Catalog.updateTableAs
    split <;> rfl
  exact catalog_mem_of_cache hop

theorem makeTable_mem (t : TableDef) :
    let out := d.makeTable E t
    out.1 = .ok ∧
        out.2.2.mem = ({ d.cat.cache with tables := d.cat.cache.tables ++ [out.2.1] }, d.plsql) ∨
      out.1 ≠ .ok ∧ out.2.2.mem = d.mem := by
  simp only [State.makeTable]
  rcases E.createTable d.store t with ⟨rc, t', store⟩
  cases rc with
  | ok => exact catalog_add_mem (d := { d with store }) _ _
  | _ => exact .inr ⟨nofun, rfl⟩

theorem insertRows_mem (t : TableDef) (rows : List Bytes) :
    ∀ d : State σ, (insertRows E t rows d).2.mem = d.mem := by
  induction rows with
  | nil => intro d; rfl
  | cons row rows ih =>
    intro d
    rw [insertRows]
    split
    · exact ih _
    · rfl

/-- A table that is made comes behind those that are there. -/
theorem makeTable_tables (t : TableDef) :
    d.mem.1.tables.length ≤ (d.makeTable E t).2.2.mem.1.tables.length := by
  rcases makeTable_mem (E := E) (d := d) t with ⟨-, hmem⟩ | ⟨-, hmem⟩
  · rw [hmem]
    simp [State.mem]
  · rw [hmem]

theorem makeChildren_tables (t : TableDef) (ks : List Nat) :
    ∀ d : State σ, d.mem.1.tables.length ≤ (makeChildren E t ks d).2.mem.1.tables.length := by
  induction ks with
  | nil => intro d; exact le_rfl
  | cons k ks ih =>
    intro d
    have hmake := makeTable_tables (E := E) (d := d) (childTable t (childName t.name k))
    rw [makeChildren]
    split
    · exact ih d
    · split
      · rename_i heq
        rw [heq] at hmake
        exact hmake.trans (ih _)
      · rename_i heq
        rw [heq] at hmake
        exact hmake

/-- Two lists that differ in one element. -/
theorem coe_middle_iff {α : Type} {xs ys : List α} {a b : α} :
    ((xs ++ a :: ys : List α) : Multiset α) = (xs ++ b :: ys : List α) ↔ a = b := by
  rw [← Multiset.coe_add, ← Multiset.coe_add, ← Multiset.cons_coe, ← Multiset.cons_coe,
    add_right_inj, Multiset.cons_inj_left]

theorem coe_set_iff {α : Type} {l : List α} {i : Nat} {a b : α} (h : l[i]? = some a) :
    (l.set i b : Multiset α) = l ↔ b = a := by
  obtain ⟨hlt, rfl⟩ := List.getElem?_eq_some_iff.mp h
  conv_lhs => rhs; rw [← set_getElem_self hlt]
  rw [set_eq_take_append_cons_drop, set_eq_take_append_cons_drop, if_pos hlt, if_pos hlt,
    coe_middle_iff]

theorem visible_ne_of_tables {m m' : Memory} (h : m.1.tables.length < m'.1.tables.length) :
    visible m' ≠ visible m := by
  intro heq
  have hcard := congrArg (fun v => Multiset.card v.tables) heq
  simp only [visible, Multiset.coe_card] at hcard
  omega

theorem coe_eraseP_ne {α : Type} {p : α → Bool} {l : List α} {a : α} (h : l.find? p = some a) :
    (l.eraseP p : Multiset α) ≠ l := by
  intro heq
  have hlen := congrArg Multiset.card heq
  have hpos := length_pos_of_mem (mem_of_find?_eq_some h)
  rw [Multiset.coe_card, Multiset.coe_card,
    length_eraseP_of_mem (mem_of_find?_eq_some h) (find?_some h)] at hlen
  omega

/-- The first element that is found goes and another one comes. -/
theorem coe_cons_eraseP_iff {α : Type} {p : α → Bool} {l : List α} {b : α} :
    ((b :: l.eraseP p : List α) : Multiset α) = l ↔ l.find? p = some b := by
  cases h : l.find? p with
  | none =>
    refine iff_of_false ?_ nofun
    intro heq
    have hlen := congrArg Multiset.card heq
    rw [eraseP_of_forall_not (find?_eq_none.mp h)] at hlen
    simp at hlen
  | some a =>
    obtain ⟨ha, xs, ys, rfl, hxs⟩ := find?_eq_some_iff_append.mp h
    rw [eraseP_middle (fun x hx => by simpa using hxs x hx) ha,
      ← Multiset.coe_eq_coe.mpr (perm_middle (a := b)), coe_middle_iff, Option.some.injEq, eq_comm]

/-- A table is visible as what it was altered to. -/
theorem visible_setTable_iff {name : Bytes} {t : TableDef} (h : d.cat.findTable name = some t)
    (t' : TableDef) : visible (d.cat.cache.setTable name t', d.plsql) = visible d.mem ↔ t' = t := by
  obtain ⟨ht, xs, ys, hsplit, hxs⟩ := find?_eq_some_iff_append.mp h
  have hset : (d.cat.cache.setTable name t').tables = xs ++ t' :: ys := by
    simp only [SchemaCache.setTable, hsplit]
    exact replaceFirst_middle (p := fun u => sameName u.name name) (fun x hx => by simpa using hxs x hx)
      ht t'
  have hiff := @coe_middle_iff _ xs ys t' t
  rw [← hset, ← hsplit] at hiff
  rw [← hiff]
  simp [visible, State.mem, SchemaCache.setTable]

/-- The last one to take a place is there. -/
theorem replaceFirst_replaceFirst {α : Type} {p : α → Bool} {a : α} (ha : p a = true) (b : α) (l : List α) :
    replaceFirst p b (replaceFirst p a l) = replaceFirst p b l := by
  induction l with
  | nil => rfl
  | cons x l ih =>
    cases hx : p x with
    | true => simp [replaceFirst, hx, ha]
    | false => simp [replaceFirst, hx, ih]

theorem setTable_setTable {name : Bytes} {t : TableDef} (ht : sameName t.name name = true) (t' : TableDef)
    (m : SchemaCache) : (m.setTable name t).setTable name t' = m.setTable name t' := by
  simp only [SchemaCache.setTable]
  rw [replaceFirst_replaceFirst (p := fun u : TableDef => sameName u.name name) ht]

theorem visible_setTable_twice_iff {name : Bytes} {t u : TableDef} (h : d.cat.findTable name = some t)
    (hu : u.name = t.name) (store : σ) (t' : TableDef) :
    visible (State.setTable { d.setTable name u with store } name t').mem = visible d.mem ↔ t' = t := by
  have hname := find?_some h
  have hmem : (State.setTable { d.setTable name u with store } name t').mem =
      ((d.cat.cache.setTable name u).setTable name t', d.plsql) := rfl
  rw [hmem, setTable_setTable (hu ▸ hname), visible_setTable_iff h]

end Effects

/-! ## Each statement -/

section Statements

variable {E : DdlEngine σ} {d : State σ}

/-- A table that is made is one more, whatever follows. -/
theorem visible_makeTable_iff (t : TableDef) (rest : TableDef → State σ → Result σ)
    (hrest : ∀ u d', d'.mem.1.tables.length ≤ (rest u d').db.mem.1.tables.length) :
    visible (match d.makeTable E t with
      | (.ok, u, d') => rest u d'
      | (rc, _, d') => d'.done rc).db.mem = visible d.mem ↔ (d.makeTable E t).1 ≠ .ok := by
  have hmake := makeTable_mem (E := E) (d := d) t
  generalize d.makeTable E t = out at hmake ⊢
  obtain ⟨rc, u, d'⟩ := out
  rcases hmake with ⟨rfl, hmem⟩ | ⟨hrc, hmem⟩
  · refine iff_of_false (visible_ne_of_tables (lt_of_lt_of_le ?_ (hrest u d'))) fun h => h rfl
    rw [show d'.mem = _ from hmem]
    simp [State.mem]
  · refine iff_of_true ?_ hrc
    rw [← show d'.mem = _ from hmem]
    cases rc with
    | ok => exact absurd rfl hrc
    | _ => rfl

theorem visible_createTable_iff (ct : CreateTable σ) :
    visible (execCreateTable E d ct).db.mem = visible d.mem ↔
      (d.cat.findTable ct.name).isSome ∨ ∀ t, newTable d ct = some t → (d.makeTable E t).1 ≠ .ok := by
  unfold execCreateTable newTable
  by_cases hex : (d.cat.findTable ct.name).isSome = true
  · rw [if_pos hex]
    refine iff_of_true ?_ (.inl hex)
    split <;> rfl
  · rw [if_neg hex, or_iff_right hex]
    cases ct.asSelect with
    | some sel =>
      dsimp only
      rcases sel d with rc | ⟨cols, rows⟩
      · exact iff_of_true rfl (fun t h => by cases h)
      · dsimp only
        generalize astToTable _ = out
        rcases out with msg | t
        · exact iff_of_true rfl (fun t h => by cases h)
        · simp only [Except.toOption, Option.some.injEq, forall_eq']
          refine visible_makeTable_iff t (fun u d' => (insertRows E u rows d').2.done (insertRows E u rows d').1) ?_
          intro u d'
          exact (congrArg (fun m => m.1.tables.length) (insertRows_mem u rows d')).ge
    | none =>
      dsimp only
      rcases astToTable ct with msg | t
      · exact iff_of_true rfl (fun t h => by cases h)
      · simp only [Except.toOption, Option.some.injEq, forall_eq']
        refine visible_makeTable_iff t (fun u d' =>
          if u.isHashPartitioned then
            (makeChildren E u (List.range u.partitionCount) d').2.done
              (makeChildren E u (List.range u.partitionCount) d').1
          else d'.done .ok) ?_
        intro u d'
        split
        · exact makeChildren_tables u _ d'
        · exact le_rfl

theorem visible_createIndex_iff (ci : CreateIndex) :
    visible (execCreateIndex E d ci).db.mem = visible d.mem ↔
      ∀ t, d.cat.findTable ci.table = some t → IndexRefused t ci := by
  unfold execCreateIndex
  cases ht : d.cat.findTable ci.table with
  | none => exact iff_of_true rfl (fun t h => by cases h)
  | some t =>
    simp only [Option.some.injEq, forall_eq', IndexRefused]
    by_cases hcols : ci.kind = .rtree ∧ ci.cols.length ≠ 1
    · rw [if_pos hcols]
      exact iff_of_true rfl (.inl ⟨hcols.1, .inl hcols.2⟩)
    rw [if_neg hcols]
    by_cases hcolumnar : ci.kind = .rtree ∧ t.columnar = true
    · rw [if_pos hcolumnar]
      exact iff_of_true rfl (.inl ⟨hcolumnar.1, .inr hcolumnar.2⟩)
    rw [if_neg hcolumnar, or_iff_right (by tauto)]
    rcases indexCols t ci.cols with msg | cols
    · exact iff_of_true rfl trivial
    · dsimp only
      cases spatialRefused t ci cols with
      | some msg => exact iff_of_true rfl rfl
      | none =>
        -- the index is there from now on, also when its tree cannot be made
        refine iff_of_false ?_ (by simp)
        have hnew : ∀ (ix ix' : Index) (store : σ),
            let t' := { t with indexes := t.indexes ++ [ix] }
            visible (State.setTable { d.setTable ci.table t' with store } ci.table
              { t' with indexes := t'.indexes.dropLast ++ [ix'] }).mem ≠ visible d.mem := by
          intro ix ix' store t'
          rw [Ne, visible_setTable_twice_iff ht (u := t') rfl]
          intro heq
          have hlen := congrArg (fun u : TableDef => u.indexes.length) heq
          simp [t'] at hlen
        dsimp only
        split
        · rw [updateTableAs_mem]
          exact hnew _ _ _
        · exact hnew _ _ _

theorem visible_drop_iff (s : Drop) :
    visible (execDrop E d s).db.mem = visible d.mem ↔ DropKeeps E d s := by
  unfold execDrop DropKeeps
  cases parseDrop s.word with
  | table =>
    dsimp only
    cases ht : d.cat.findTable s.name with
    | none => exact iff_of_true (congrArg visible (missing_mem _ _)) (fun t h => by cases h)
    | some t =>
      simp only [Option.some.injEq, forall_eq']
      rcases E.dropTable d.store t with ⟨rc, store⟩
      cases rc with
      | ok =>
        refine iff_of_false ?_ (fun h => h rfl)
        intro heq
        simp only [State.done, forget_mem] at heq
        exact coe_eraseP_ne ht (congrArg Visible.tables heq)
      | _ => exact iff_of_true rfl (by simp)
  | index =>
    dsimp only
    cases hfound : findIndex d.cat.cache s.name with
    | none => exact iff_of_true (congrArg visible (missing_mem _ _)) (fun i t pos ix h => by cases h)
    | some found =>
      obtain ⟨i, t, pos⟩ := found
      obtain ⟨hi, ix, hix⟩ := findIndex_spec hfound
      have hcond : (∀ i' t' pos' ix', some (i, t, pos) = some (i', t', pos') → t'.indexes[pos']? = some ix' →
          (E.dropIndex d.store ix').1 ≠ .ok) ↔ (E.dropIndex d.store ix).1 ≠ .ok := by
        constructor
        · exact fun h => h i t pos ix rfl hix
        · rintro h i' t' pos' ix' ⟨⟩ hix'
          obtain rfl : ix = ix' := Option.some.inj (hix.symm.trans hix')
          exact h
      rw [hcond]
      simp only [hix]
      rcases E.dropIndex d.store ix with ⟨rc, store⟩
      cases rc with
      | ok =>
        refine iff_of_false ?_ (fun h => h rfl)
        dsimp only
        rw [updateTableAs_mem]
        intro heq
        have htables : (d.cat.cache.tables.set i (t.dropIndex pos) : Multiset TableDef) =
            d.cat.cache.tables := congrArg Visible.tables heq
        have hlen := congrArg (fun u : TableDef => u.indexes.length) ((coe_set_iff hi).mp htables)
        have hpos := (List.getElem?_eq_some_iff.mp hix).1
        simp only [TableDef.dropIndex, length_eraseIdx_of_lt hpos] at hlen
        omega
      | _ => exact iff_of_true rfl (by simp)
  | view =>
    dsimp only
    cases hv : d.cat.findView s.name with
    | none => exact iff_of_true (congrArg visible (missing_mem _ _)) rfl
    | some v =>
      refine iff_of_false ?_ (by simp)
      intro heq
      simp only [State.done, forget_mem, Option.isNone_some, Bool.false_eq_true, if_false] at heq
      exact coe_eraseP_ne hv (congrArg Visible.views heq)
  | tablespace =>
    refine iff_of_true ?_ trivial
    have hdrop : ∀ (c : Catalog) pl,
        visible ((c.tablespaceDrop s.name s.ifExists).2.cache, pl) = visible (c.cache, pl) := by
      intro c pl
      unfold Catalog.tablespaceDrop
      split <;> rfl
    dsimp only
    split
    · rfl
    · split
      · rfl
      · split
        · exact catalog_visible hdrop
        · rfl

theorem visible_createView_iff (name selectSql : Bytes) (materialized ifNotExists : Bool) :
    visible (execCreateView E d name selectSql materialized ifNotExists).db.mem = visible d.mem ↔
      (d.cat.findView name).isSome ∨
        (d.catalog E fun c => c.addView E.pageSize ⟨name, selectSql, materialized, 0⟩).1 ≠ .ok := by
  unfold execCreateView
  by_cases hex : (d.cat.findView name).isSome = true
  · rw [if_pos hex]
    refine iff_of_true ?_ (.inl hex)
    split <;> rfl
  · rw [if_neg hex, or_iff_right hex]
    rcases catalog_add_mem (E := E) (d := d) (.view ⟨name, selectSql, materialized, 0⟩)
      (fun m => { m with views := m.views ++ [⟨name, selectSql, materialized, 0⟩] }) with
      ⟨hok, hmem⟩ | ⟨hrc, hmem⟩
    · refine iff_of_false ?_ (fun h => h hok)
      intro heq
      have hviews := congrArg (fun v => Multiset.card v.views) ((congrArg visible hmem).symm.trans heq)
      simp [visible, State.mem] at hviews
    · exact iff_of_true (congrArg visible hmem) hrc

theorem visible_alter_iff (table : Bytes) (a : Alter) :
    visible (execAlter E d table a).db.mem = visible d.mem ↔
      ∀ t t', d.cat.findTable table = some t → alteredTable E d t a = some t' → t' = t := by
  unfold execAlter
  cases ht : d.cat.findTable table with
  | none => exact iff_of_true rfl (fun t t' h => by cases h)
  | some t =>
    have hcond : (∀ u u', some t = some u → alteredTable E d u a = some u' → u' = u) ↔
        ∀ t', alteredTable E d t a = some t' → t' = t :=
      ⟨fun h t' => h t t' rfl, fun h u u' hu => by cases hu; exact h u'⟩
    rw [hcond]
    -- the altered table takes the place of the old one, whether the rest succeeds or not
    have hset : ∀ (t' : TableDef) (store : σ) (rc : Status),
        visible ((State.setTable { d with store } table t').done rc).db.mem = visible d.mem ↔ t' = t :=
      fun t' _ _ => visible_setTable_iff ht t'
    have hupdate : ∀ (t' : TableDef) (name : Bytes) (store : σ),
        visible ((State.setTable { d with store } table t').updateTableAs E name t').db.mem = visible d.mem ↔
          t' = t := by
      intro t' name store
      rw [updateTableAs_mem]
      exact hset t' store .ok
    cases a with
    | addColumn col =>
      simp only [alteredTable]
      by_cases hcol : (t.findColumn col.name).isSome = true
      · rw [if_pos hcol, if_pos hcol]
        exact iff_of_true rfl (fun t' h => by cases h)
      · rw [if_neg hcol, if_neg hcol]
        rcases E.addColumn d.store (t.addColumn (addedColumn col)) with ⟨rc, t', store⟩
        cases rc with
        | ok => simpa using hupdate _ _ _
        | _ => simpa using hset _ _ _
    | renameColumn col newname =>
      simp only [alteredTable]
      cases t.findColumn col with
      | none => exact iff_of_true rfl (fun t' h => by cases h)
      | some ci => simpa using hupdate _ _ d.store
    | renameTable newname =>
      simp only [alteredTable]
      by_cases hex : (d.cat.findTable newname).isSome = true
      · rw [if_pos hex, if_pos hex]
        exact iff_of_true rfl (fun t' h => by cases h)
      · rw [if_neg hex, if_neg hex]
        simpa using hupdate _ _ d.store
    | dropColumn col =>
      simp only [alteredTable]
      cases t.findColumn col with
      | none => exact iff_of_true rfl (fun t' h => by cases h)
      | some ci =>
        simp only [Option.bind_some]
        cases dropRefused t ci col with
        | some msg => exact iff_of_true rfl (fun t' h => by cases h)
        | none =>
          rcases E.dropColumn d.store t ci with ⟨rc, t', store⟩
          cases rc with
          | ok => simpa using hupdate _ _ _
          | _ => simpa using hset _ _ _

/-- The routine of the name goes, if there is one. -/
theorem forget_routine_mem (name : Bytes) :
    (if (d.cat.findRoutine name).isSome then d.forget E fun c => c.dropRoutine name else d).mem =
      ({ d.cat.cache with
          routines := d.cat.cache.routines.eraseP fun r => sameName r.name name }, d.plsql) := by
  cases h : d.cat.findRoutine name with
  | some r => exact forget_mem _
  | none =>
    rw [eraseP_of_forall_not (find?_eq_none.mp h)]
    rfl

theorem addRoutine_mem (r : Routine) :
    let out := d.catalog E fun c => c.addRoutine E.pageSize r
    out.1 = .ok ∧
        out.2.mem = ({ d.cat.cache with routines := d.cat.cache.routines ++ [r] }, d.plsql) ∨
      out.1 ≠ .ok ∧ out.2.mem = d.mem :=
  catalog_add_mem (.routine r) _

theorem visible_createRoutine_iff (cr : CreateRoutine) :
    visible (execCreateRoutine E d cr).db.mem = visible d.mem ↔ RoutineKeeps E d cr := by
  unfold execCreateRoutine RoutineKeeps
  have hmem := forget_routine_mem (E := E) (d := d) cr.name
  dsimp only
  rw [← isSome_find?]
  by_cases hrefused : ((d.cat.findRoutine cr.name).isSome ∨
      (d.plsql.find? fun r => sameName r.name cr.name).isSome) ∧ cr.orReplace = false
  · rw [if_pos (by simpa using hrefused), if_pos hrefused]
    exact iff_of_true rfl trivial
  rw [if_neg (by simpa using hrefused), if_neg hrefused]
  generalize (if (d.cat.findRoutine cr.name).isSome then
    d.forget E fun c => c.dropRoutine cr.name else d) = d' at hmem ⊢
  -- without a new routine nothing has changed if there was no old one
  have hold : visible d'.mem = visible d.mem ↔ d.cat.findRoutine cr.name = none := by
    cases h : d.cat.findRoutine cr.name with
    | some r =>
      refine iff_of_false ?_ nofun
      rw [hmem]
      exact fun heq => coe_eraseP_ne h (congrArg Visible.routines heq)
    | none =>
      rw [hmem, eraseP_of_forall_not (find?_eq_none.mp h)]
      exact iff_of_true rfl rfl
  by_cases hpl : cr.isPlsql = true
  · rw [if_pos hpl, if_pos hpl]
    cases E.plsqlParse (cr.source.getD []) cr.params with
    | some why => simpa [State.fail] using hold
    | none =>
      have hpl' : d'.plsql = d.plsql := congrArg Prod.snd hmem
      have hrest : (visible d'.mem = visible d.mem ↔ (d.cat.cache.routines.eraseP fun r =>
          sameName r.name cr.name : Multiset Routine) = d.cat.cache.routines) := by
        rw [hmem]
        simp [visible, State.mem]
      have hcat : d'.cat.cache = _ := congrArg Prod.fst hmem
      simp only [State.done, Option.isSome_none, Bool.false_eq_true, false_or, ← hold, hrest,
        ← coe_cons_eraseP_iff, hpl']
      simp [visible, State.mem, hcat]
  · rw [if_neg hpl, if_neg hpl]
    cases E.luaDefine cr.name (luaFunction cr) with
    | some why => simpa [State.fail] using hold
    | none =>
      simp only [Option.isNone_none, true_and]
      rcases addRoutine_mem (E := E) (d := d')
        ⟨cr.name, luaFunction cr, cr.isFunction, some cr.params.length⟩ with ⟨hok, hnew⟩ | ⟨hrc, hnew⟩
      · rw [if_pos hok]
        have hcat : d'.cat.cache = _ := congrArg Prod.fst hmem
        have hpl' : d'.plsql = d.plsql := congrArg Prod.snd hmem
        refine (iff_of_eq (congrArg (visible · = visible d.mem) hnew)).trans ?_
        rw [Catalog.findRoutine, ← coe_cons_eraseP_iff,
          ← Multiset.coe_eq_coe.mpr (perm_append_singleton _ _)]
        simp [visible, State.mem, hcat, hpl']
      · rw [if_neg hrc]
        exact (iff_of_eq (congrArg (visible · = visible d.mem) hnew)).trans hold

end Statements

/-! ## Grants -/

section Grants

variable {E : DdlEngine σ} {revoke : Bool} {one : State σ → Bytes → Status × State σ}
  {kept : List AclEntry → Bytes → Bool}

/-- GRANT only adds to the list and REVOKE only takes away from it. -/
def AclMoves (revoke : Bool) (old new : List AclEntry) : Prop :=
  if revoke then new.Sublist old else old.Sublist new

theorem AclMoves.refl (revoke : Bool) (acl : List AclEntry) : AclMoves revoke acl acl := by
  cases revoke <;> exact List.Sublist.refl acl

section

variable {a b c : List AclEntry} (h₁ : AclMoves revoke a b) (h₂ : AclMoves revoke b c)

include h₁ h₂

theorem AclMoves.trans :
    AclMoves revoke a c := by
  cases revoke
  · exact List.Sublist.trans h₁ h₂
  · exact List.Sublist.trans h₂ h₁

/-- There is no way back. -/
theorem AclMoves.eq_of_length (hlen : c.length = a.length) : b = a := by
  cases revoke
  · have h₁ : a.Sublist b := h₁
    have h₂ : b.Sublist c := h₂
    exact (h₁.eq_of_length_le (hlen ▸ h₂.length_le)).symm
  · have h₁ : b.Sublist a := h₁
    have h₂ : c.Sublist b := h₂
    exact h₁.eq_of_length_le (hlen ▸ h₂.length_le)

end

/-- One privilege changes the list of grants and nothing else. -/
structure AclStep (revoke : Bool) (one : State σ → Bytes → Status × State σ)
    (kept : List AclEntry → Bytes → Bool) : Prop where
  rest : ∀ d p, (one d p).2.mem =
    ({ d.cat.cache with acl := (one d p).2.cat.cache.acl }, d.plsql)
  moves : ∀ d p, AclMoves revoke d.cat.cache.acl (one d p).2.cat.cache.acl
  kept_iff : ∀ d p, (one d p).2.cat.cache.acl = d.cat.cache.acl ↔ kept d.cat.cache.acl p = true

theorem eachPriv_moves (h : AclStep revoke one kept) (ps : List Bytes) :
    ∀ d : State σ, AclMoves revoke d.cat.cache.acl (eachPriv one ps d).2.cat.cache.acl := by
  induction ps with
  | nil => intro d; exact .refl _ _
  | cons p ps ih =>
    intro d
    have hstep := h.moves d p
    rw [eachPriv]
    split
    · rename_i d₁ heq
      rw [heq] at hstep
      exact hstep.trans (ih d₁)
    · rename_i heq
      rwa [heq] at hstep

theorem visible_eachPriv_iff (h : AclStep revoke one kept) (ps : List Bytes) :
    ∀ d : State σ, visible (eachPriv one ps d).2.mem = visible d.mem ↔ PrivsKept one kept ps d := by
  induction ps with
  | nil => intro d; exact iff_of_true rfl trivial
  | cons p ps ih =>
    intro d
    rw [PrivsKept, ← h.kept_iff]
    have hrest := h.rest d p
    have hmoves := h.moves d p
    have hrun := eachPriv_moves h ps (one d p).2
    rw [eachPriv]
    generalize one d p = out at hrest hmoves hrun ⊢
    obtain ⟨rc, d₁⟩ := out
    dsimp only at hrest hmoves hrun ⊢
    by_cases hacl : d₁.cat.cache.acl = d.cat.cache.acl
    · have hmem : d₁.mem = d.mem := by
        rw [hrest, hacl]
        rfl
      rw [← hmem]
      cases rc with
      | ok => simpa [hacl] using ih d₁
      | _ => simp [hacl]
    · -- what was added or taken away stays so to the end
      refine iff_of_false ?_ (fun hc => hacl hc.1)
      intro heq
      have hcard := congrArg (fun v => Multiset.card v.grants) heq
      refine hacl ?_
      cases rc with
      | ok => exact hmoves.eq_of_length hrun (by simpa [visible, State.mem] using hcard)
      | _ => exact hmoves.eq_of_length (.refl _ _) (by simpa [visible, State.mem] using hcard)

/-- The kind of an object is never 0. -/
theorem parseGrantObject_kind (src : Bytes) : (parseGrantObject src).1 ≠ 0 := by
  unfold parseGrantObject
  dsimp only
  split
  · exact (by decide : aclTable ≠ 0)
  · rename_i word kind hfind
    have hall : ∀ k ∈ aclKinds, k.2 ≠ 0 := by decide
    exact hall _ (mem_of_find?_eq_some hfind)

/-- What a privilege that is granted changes in memory. -/
theorem grantOne_mem (d : State σ) {grantee object : Bytes} {kind : UInt8} (hkind : kind ≠ 0) (p : Bytes) :
    (grantOne E d grantee kind object p).2.mem =
      ({ d.cat.cache with acl := aclAdd d.cat.cache.acl ⟨grantee, p.map upperAscii, kind, some object⟩ },
        d.plsql) := by
  have hpersist : ∀ c : Catalog, (c.aclPersist E.pageSize ⟨grantee, p, kind, some object⟩).2.cache =
      c.cache := by
    intro c
    unfold Catalog.aclPersist Catalog.add
    split <;> rfl
  simp only [grantOne, aclGrant, if_neg hkind]
  rw [catalog_mem_of_cache hpersist]
  rfl

theorem revokeOne_mem (d : State σ) (grantee object : Bytes) (kind : UInt8) (p : Bytes) :
    (revokeOne E d grantee kind object p).2.mem =
      ({ d.cat.cache with
          acl := aclRevoke d.cat.cache.acl (some grantee) (some p) kind (some object) }, d.plsql) := by
  unfold revokeOne
  rw [catalog_mem_of_cache fun _ => rfl]
  rfl

theorem aclStep_grant {grantee object : Bytes} {kind : UInt8} (hkind : kind ≠ 0) :
    AclStep false (fun d p => grantOne E d grantee kind object p) (privKept false grantee kind object) := by
  have hacl : ∀ (d : State σ) p, (grantOne E d grantee kind object p).2.cat.cache.acl =
      aclAdd d.cat.cache.acl ⟨grantee, p.map upperAscii, kind, some object⟩ :=
    fun d p => congrArg (fun m => m.1.acl) (grantOne_mem d hkind p)
  refine ⟨fun d p => ?_, fun d p => ?_, fun d p => ?_⟩
  · rw [hacl]
    exact grantOne_mem d hkind p
  · rw [hacl, aclAdd]
    show List.Sublist _ _
    split
    · exact .refl _
    · exact sublist_cons_self _ _
  · rw [hacl, aclAdd, privKept]
    simp only [Bool.false_eq_true, if_false]
    split <;> simp_all

theorem aclStep_revoke {grantee object : Bytes} {kind : UInt8} :
    AclStep true (fun d p => revokeOne E d grantee kind object p) (privKept true grantee kind object) := by
  have hacl : ∀ (d : State σ) p, (revokeOne E d grantee kind object p).2.cat.cache.acl =
      aclRevoke d.cat.cache.acl (some grantee) (some p) kind (some object) :=
    fun d p => congrArg (fun m => m.1.acl) (revokeOne_mem d grantee object kind p)
  refine ⟨fun d p => ?_, fun d p => ?_, fun d p => ?_⟩
  · rw [hacl]
    exact revokeOne_mem d grantee object kind p
  · rw [hacl]
    exact filter_sublist
  · rw [hacl, aclRevoke, filter_eq_self]
    simp [privKept]

theorem visible_grant_iff (d : State σ) (g : Grant) :
    visible (execGrant E d g).db.mem = visible d.mem ↔ (DdlStmt.grant g).Keeps E d := by
  have hkind := parseGrantObject_kind g.object
  simp only [execGrant, DdlStmt.Keeps]
  have hstep : ∀ (kind : UInt8) (object : Bytes), parseGrantObject g.object = (kind, object) →
      AclStep g.revoke (grantStep E g)
        (privKept g.revoke (g.grantee.getD "PUBLIC".toUTF8.toList) kind object) := by
    intro kind object hobj
    rw [hobj] at hkind
    unfold grantStep
    rw [hobj]
    cases g.revoke with
    | true => exact aclStep_revoke
    | false => exact aclStep_grant hkind
  generalize hobj : parseGrantObject g.object = ko
  obtain ⟨kind, object⟩ := ko
  dsimp only
  by_cases hempty : object = []
  · rw [if_pos hempty]
    exact iff_of_true rfl (.inl hempty)
  · rw [if_neg hempty, or_iff_right hempty, ← visible_eachPriv_iff (hstep kind object hobj)]
    unfold grantStep
    rw [hobj]
    rfl

end Grants

/-- **When a statement leaves the visible objects as they are.** -/
theorem visible_exec_iff (E : DdlEngine σ) (d : State σ) (st : DdlStmt σ) :
    visible (st.exec E d).db.mem = visible d.mem ↔ st.Keeps E d := by
  cases st with
  | createTable ct => exact visible_createTable_iff ct
  | createIndex ci => exact visible_createIndex_iff ci
  | drop s => exact visible_drop_iff s
  | createView name selectSql materialized ifNotExists =>
    exact visible_createView_iff name selectSql materialized ifNotExists
  | createRoutine cr => exact visible_createRoutine_iff cr
  | alter table a => exact visible_alter_iff table a
  | createTablespace name location ifNotExists =>
    refine iff_of_true ?_ trivial
    have hcreate : ∀ (c : Catalog) pl,
        visible ((c.tablespaceCreate E.pageSize name location ifNotExists).2.cache, pl) =
          visible (c.cache, pl) := by
      intro c pl
      unfold Catalog.tablespaceCreate Catalog.add
      repeat' split
      all_goals rfl
    simp only [DdlStmt.exec, execTablespaceCreate]
    repeat' split
    · rfl
    · rfl
    · rfl
    · exact catalog_visible hcreate
  | grant g => exact visible_grant_iff d g

/-! ## Connections -/

section Connections

variable {ρ : Type}

/-- A statement in a transaction: its pages are written, and memory is changed. -/
def ddlRun (E : Txn → TxnMgr → DdlEngine σ) (st : DdlStmt σ) : PagedRun (Root × σ) Memory :=
  fun t m s mem =>
    let r := st.exec (E t m) (stateOf s mem)
    (r.rc, some (r.db.cat.tree, r.db.store), r.db.mem)

/-- A connection on the catalog and the storage of the schema. -/
abbrev DdlSess (σ : Type) := Sess (Paged (Root × σ) Memory)

/-- What the next statement of any connection finds. -/
def seen (s : DdlSess σ) : Visible := visible s.mgr.mem

variable (c : Codec) (vac : Pager → PagesFate)
  (query : ρ → Txn → TxnMgr → Root × σ → Memory → Status) (E : Txn → TxnMgr → DdlEngine σ)

def execute (s : DdlSess σ) (st : Stmt ρ (DdlStmt σ)) : DdlSess σ :=
  (stmtExecute (pagedBackend c vac query (ddlRun E)) s st).2.1

def executeAll (s : DdlSess σ) (sts : List (Stmt ρ (DdlStmt σ))) : DdlSess σ :=
  sts.foldl (execute c vac query E) s

/-- The statement is no schema change, or is refused before it runs, or leaves the visible objects as
they are. -/
def StmtKeeps (s : DdlSess σ) : Stmt ρ (DdlStmt σ) → Prop
  | .write st => ∀ m t, writeTxn (pagedBackend c vac query (ddlRun E)) s = some (m, t) →
      st.Keeps (E t m.mgr) (stateOf m.cur m.mem)
  | _ => True

/-- Every statement of the run is so, when its turn comes. -/
def RunKeeps : DdlSess σ → List (Stmt ρ (DdlStmt σ)) → Prop
  | _, [] => True
  | s, st :: sts => StmtKeeps c vac query E s st ∧ RunKeeps (execute c vac query E s st) sts

variable {c vac query E} {s : DdlSess σ}

theorem seen_execute_iff (st : Stmt ρ (DdlStmt σ)) :
    seen (execute c vac query E s st) = seen s ↔ StmtKeeps c vac query E s st := by
  rw [seen, execute, stmtExecute_mem]
  cases st with
  | write st =>
    simp only [StmtKeeps]
    cases hrun : writeTxn (pagedBackend c vac query (ddlRun E)) s with
    | none => exact iff_of_true rfl (fun m t h => by cases h)
    | some mt =>
      obtain ⟨m, t⟩ := mt
      have hmem : m.mem = s.mgr.mem := writeTxn_mem c vac query (ddlRun E) s hrun
      simp only [Option.some.injEq, Prod.mk.injEq, and_imp, seen, ← hmem]
      rw [show (∀ m' t', m = m' → t = t' → st.Keeps (E t' m'.mgr) (stateOf m'.cur m'.mem)) ↔
        st.Keeps (E t m.mgr) (stateOf m.cur m.mem) from
          ⟨fun h => h m t rfl rfl, fun h m' t' hm ht => hm ▸ ht ▸ h⟩]
      exact visible_exec_iff _ _ st
  | _ => exact iff_of_true rfl trivial

/-- A run of such statements. -/
theorem seen_executeAll (sts : List (Stmt ρ (DdlStmt σ))) :
    ∀ {s : DdlSess σ}, RunKeeps c vac query E s sts → seen (executeAll c vac query E s sts) = seen s := by
  induction sts with
  | nil => intro s _; rfl
  | cons st sts ih =>
    intro s h
    exact (ih h.2).trans ((seen_execute_iff st).mpr h.1)

/-- Nothing but a schema change changes what is seen; `ROLLBACK` and `ROLLBACK TO` do not. -/
theorem seen_executeAll_concat (sts : List (Stmt ρ (DdlStmt σ))) {st : Stmt ρ (DdlStmt σ)}
    (hst : st.isWrite = false) :
    seen (executeAll c vac query E s (sts ++ [st])) = seen (executeAll c vac query E s sts) := by
  rw [executeAll, foldl_append]
  refine (seen_execute_iff st).mpr ?_
  cases st with
  | write op => exact absurd hst (by simp [Stmt.isWrite])
  | _ => trivial

end Connections

/-- **What is rolled back stays visible.** After `BEGIN`, any statements and `ROLLBACK`, the objects
are those of `BEGIN` exactly if they were so before the `ROLLBACK`; the same for a savepoint; and a
statement that fails leaves them as they were exactly if it is refused, or leaves them by itself. -/
theorem rolled_back_ddl_iff {ρ : Type} (c : Codec) (vac : Pager → PagesFate)
    (query : ρ → Txn → TxnMgr → Root × σ → Memory → Status) (E : Txn → TxnMgr → DdlEngine σ)
    (s : DdlSess σ) :
    (∀ sts, seen (executeAll c vac query E s (.begin :: sts ++ [.rollback])) = seen s ↔
      seen (executeAll c vac query E s (.begin :: sts)) = seen s) ∧
    (∀ name sts,
      seen (executeAll c vac query E s (.savepoint name :: sts ++ [.rollbackTo name])) = seen s ↔
        seen (executeAll c vac query E s (.savepoint name :: sts)) = seen s) ∧
    (∀ st, (stmtExecute (pagedBackend c vac query (ddlRun E)) s (.write st)).1 ≠ .ok →
      (seen (execute c vac query E s (.write st)) = seen s ↔ StmtKeeps c vac query E s (.write st))) ∧
    ∀ sts, RunKeeps c vac query E s sts → seen (executeAll c vac query E s sts) = seen s := by
  refine ⟨fun sts => ?_, fun name sts => ?_, fun st _ => seen_execute_iff _,
    fun sts h => seen_executeAll sts h⟩
  · rw [seen_executeAll_concat _ rfl]
  · rw [seen_executeAll_concat _ rfl]

/-- A connection on a new database. -/
def newDb : DdlSess Unit :=
  ⟨⟨txnmgrOpen freshPager, none, (Root.create 4096 2, ()), [], (SchemaCache.empty, [])⟩, 0, none, none⟩

/-- `DROP TABLE t` of a table that does not exist, in a transaction that is rolled back. -/
theorem rolled_back_ddl_missing_table :
    let sts : List (Stmt Unit (DdlStmt Unit)) :=
      [.begin, .write (.drop ⟨.table, false, [116]⟩), .rollback]
    seen (executeAll Codec.identity (fun _ => .kept) (fun _ _ _ _ _ => .ok) (fun _ _ => idleEngine Unit)
      newDb sts) = seen newDb := by
  intro sts
  refine (rolled_back_ddl_iff Codec.identity (fun _ => .kept) (fun _ _ _ _ _ => .ok)
    (fun _ _ => idleEngine Unit) newDb).2.2.2 sts ⟨trivial, ?_, trivial, trivial⟩
  intro m t hrun u hu
  have hmem := writeTxn_mem _ _ _ _ _ hrun
  rw [execute, stmtExecute_mem] at hmem
  simp only [stateOf, Catalog.findTable, hmem] at hu
  cases hu

/-- `CREATE TABLE t`, without columns. -/
def createT : DdlStmt Unit :=
  .createTable ⟨[116], false, [], [], none, false, none, none, .none, [], 0, none, none⟩

/-- `CREATE OR REPLACE FUNCTION f`, in Lua. -/
def createF (source : Bytes) : DdlStmt Unit :=
  .createRoutine ⟨[102], true, none, [], some source, true⟩

/-- A storage whose Lua compiler knows no program but the empty one. -/
def emptyLua : DdlEngine Unit :=
  { idleEngine Unit with
    luaDefine := fun _ src => if src = "function()  end".toUTF8.toList then none else some [] }

/-- **A table that was rolled back is there, and a routine that was not replaced is gone.** -/
theorem rolled_back_table_visible :
    let run := executeAll Codec.identity (fun _ => .kept)
      (fun (_ : Unit) _ _ _ _ => .ok) (fun _ _ => emptyLua)
    let rolledBack := run newDb [.begin, .write createT, .rollback]
    let withF := run newDb [.write (createF [])]
    rolledBack.mgr.mem.1.tables.length = 1 ∧ newDb.mgr.mem.1.tables.length = 0 ∧
    rolledBack.mgr.cur.1.entries.length = 0 ∧
    withF.mgr.mem.1.routines.length = 1 ∧
    (stmtExecute (pagedBackend Codec.identity (fun _ => .kept)
      (fun (_ : Unit) _ _ _ _ => .ok) (ddlRun fun _ _ => emptyLua)) withF (.write (createF [120]))).1 = .error ∧
    (run withF [.write (createF [120])]).mgr.mem.1.routines.length = 0 := by
  decide +kernel

end Tdb.Ddl
