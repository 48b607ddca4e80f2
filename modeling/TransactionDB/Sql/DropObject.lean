import TransactionDB.Catalog.Coherence
import TransactionDB.Sql.Ddl

/-!
# TransactionDB — what DROP removes

DROP of a table or a view removes the object it names and nothing else when the first record with
the name is one of its kind; DROP INDEX and DROP TABLESPACE always do. Every other word drops a
table: DROP FUNCTION and DROP PROCEDURE never remove a routine, and remove a table of the name.

The data of tables and indexes are trees, known by their root pages. They are freed without failures
here, and the pages of the catalog can be written.

* `drop_removes_only_iff`: when DROP does what it says.
-/

namespace Tdb.Ddl

open BTree CatRecord List

variable {τ : Type}

/-! ## The trees of the objects -/

/-- What is stored from each root page on. -/
abbrev Trees (τ : Type) := UInt32 → Option τ

/-- `tdb_btree_destroy`, and `tdb_rtree_destroy`; the page 0 is none. -/
def freeTree (s : Trees τ) (root : UInt32) : Trees τ :=
  if root = 0 then s else Function.update s root none

/-- The trees that `eng_drop_table` and `ceng_drop_table` free. -/
def treeRoots (t : TableDef) : List UInt32 :=
  t.root :: (if t.columnar then t.colRoots else [t.historyRoot]) ++ t.indexes.map Index.root

/-- The storage in which trees are freed, and the rest is as in another one. -/
def treeEngine (ps : Nat) (base : DdlEngine (Trees τ)) : DdlEngine (Trees τ) :=
  { base with
    pageSize := ps
    dropTable := fun s t => (.ok, (treeRoots t).foldl freeTree s)
    dropIndex := fun s ix => (.ok, freeTree s ix.root)
    catalogIo := fun s => (.ok, s) }

theorem freeTree_of_ne {s : Trees τ} {root r : UInt32} (h : r ≠ root ∨ r = 0) :
    freeTree s root r = s r := by
  rw [freeTree]
  split
  · rfl
  · next hroot =>
    rw [Function.update_of_ne]
    rintro rfl
    tauto

theorem foldl_freeTree_of_notMem {r : UInt32} (roots : List UInt32) : ∀ {s : Trees τ},
    r ∉ roots ∨ r = 0 → roots.foldl freeTree s r = s r := by
  induction roots with
  | nil => intro s _; rfl
  | cons root roots ih =>
    intro s h
    rw [foldl_cons, ih (by simp only [mem_cons] at h; tauto),
      freeTree_of_ne (by simp only [mem_cons] at h; tauto)]

/-! ## What DROP is for -/

/-- Nothing changes. The catalog in the file is the list of its records. -/
structure Unchanged (ps : Nat) (recs : List (UInt64 × CatRecord)) (d d' : State (Trees τ)) : Prop where
  cache : d'.cat.cache = d.cat.cache
  records : d'.cat.tree.HasRows ps (recRows recs)
  plsql : d'.plsql = d.plsql
  store : d'.store = d.store

/-- The first object of a kind with a property is gone from memory and from the records, if there is
one. -/
structure Gone {α : Type} (ps : Nat) (recs : List (UInt64 × CatRecord)) (k : ObjectKind α)
    (p : α → Bool) (d d' : State (Trees τ)) : Prop where
  cache : d'.cat.cache = k.set d.cat.cache ((k.get d.cat.cache).eraseP p)
  records : d'.cat.tree.HasRows ps (recRows (recs.eraseP fun r => (k.as r.2).any p))

/-- The first index with the name is gone from its table, in memory and in the record. -/
structure IndexGone (ps : Nat) (recs : List (UInt64 × CatRecord)) (name : Bytes)
    (d d' : State (Trees τ)) : Prop where
  cache : d'.cat.cache = (findIndex d.cat.cache name).elim d.cat.cache
    fun (i, t, pos) => d.cat.cache.setTableAt i (t.dropIndex pos)
  records : d'.cat.tree.HasRows ps (recRows ((findIndex d.cat.cache name).elim recs
    fun (_, t, pos) => recs.map fun r =>
      if r.2 = .table t then (r.1, .table (t.dropIndex pos)) else r))

/-- The trees of the tables that are left have their data. -/
def DataKept (d d' : State (Trees τ)) : Prop :=
  ∀ t ∈ d'.cat.cache.tables, ∀ root ∈ treeRoots t, d'.store root = d.store root

/-- The object that the statement names is gone, and everything else is there. -/
def Removes (ps : Nat) (recs : List (UInt64 × CatRecord)) (s : Drop) (d d' : State (Trees τ)) : Prop :=
  match s.word with
  | .table => Gone ps recs tableKind (fun t => sameName t.name s.name) d d' ∧ d'.plsql = d.plsql ∧
      DataKept d d'
  | .index => IndexGone ps recs s.name d d' ∧ d'.plsql = d.plsql ∧ DataKept d d'
  | .view => Gone ps recs viewKind (fun v => sameName v.name s.name) d d' ∧ d'.plsql = d.plsql ∧
      DataKept d d'
  | .tablespace => Gone ps recs tablespaceKind (fun t => sameName t.name s.name) d d' ∧
      d'.plsql = d.plsql ∧ DataKept d d'
  | .function => Gone ps recs routineKind (fun r => sameName r.name s.name && r.isFunction) d d' ∧
      d'.plsql = d.plsql.eraseP (fun r => sameName r.name s.name && r.isFunction) ∧ DataKept d d'
  | .procedure => Gone ps recs routineKind (fun r => sameName r.name s.name && !r.isFunction) d d' ∧
      d'.plsql = d.plsql.eraseP (fun r => sameName r.name s.name && !r.isFunction) ∧ DataKept d d'
  -- there are no objects of other kinds
  | .other => Unchanged ps recs d d'

/-- A failed DROP changes nothing, another one removes the object it names. -/
def DropMeets (ps : Nat) (recs : List (UInt64 × CatRecord)) (s : Drop) (d : State (Trees τ))
    (r : Result (Trees τ)) : Prop :=
  if r.rc = .ok then Removes ps recs s d r.db else Unchanged ps recs d r.db

/-- No function or procedure of the name, in the catalog or in PL/SQL. -/
def NoRoutine (d : State (Trees τ)) (name : Bytes) (isFunction : Bool) : Prop :=
  (∀ r ∈ d.cat.cache.routines, ¬ (sameName r.name name = true ∧ r.isFunction = isFunction)) ∧
    ∀ r ∈ d.plsql, ¬ (sameName r.name name = true ∧ r.isFunction = isFunction)

/-- When DROP does what it is for. -/
def DropSafe (s : Drop) (d : State (Trees τ)) : Prop :=
  match s.word with
  | .table => (d.cat.findTable s.name).isSome → FirstNamed d.cat.tree catTable s.name
  | .view => (d.cat.findView s.name).isSome → FirstNamed d.cat.tree catView s.name
  | .index => True
  | .tablespace => True
  | .function => d.cat.findTable s.name = none ∧ (s.ifExists = true → NoRoutine d s.name true)
  | .procedure => d.cat.findTable s.name = none ∧ (s.ifExists = true → NoRoutine d s.name false)
  | .other => d.cat.findTable s.name = none

/-- A catalog as the statements make it: the records are those of the objects in memory, no two tables
have one name, and no two trees have one root. -/
structure Content (ps : Nat) (recs : List (UInt64 × CatRecord)) (d : State (Trees τ)) : Prop where
  rep : d.cat.Rep ps recs
  names : d.cat.cache.tables.Pairwise fun a b => sameName a.name b.name = false
  trees : ((d.cat.cache.tables.flatMap treeRoots).filter (· ≠ 0)).Nodup

variable {ps : Nat} {recs : List (UInt64 × CatRecord)} {d d' : State (Trees τ)}

theorem Content.unchanged (h : Content ps recs d) : Unchanged ps recs d d :=
  ⟨rfl, h.rep.rows, rfl, rfl⟩

theorem Unchanged.dataKept (h : Unchanged ps recs d d') : DataKept d d' := by
  intro t _ root _
  rw [h.store]

/-! ## Tables and views -/

/-- The rows of a tree are determined. -/
theorem recRows_unique {t : Root} {recs recs' : List (UInt64 × CatRecord)}
    (h : t.HasRows ps (recRows recs)) (h' : t.HasRows ps (recRows recs')) :
    recs.map Prod.fst = recs'.map Prod.fst := by
  have hids : ∀ rs : List (UInt64 × CatRecord),
      (rowCells (recRows rs)).map (fun c => keyToRowid c.1) = rs.map Prod.fst := by
    intro rs
    simp [rowCells, recRows, keyToRowid_rowidToKey]
  rw [← hids recs, ← hids recs', ← h.entries, ← h'.entries]

/-- Two deletions that leave the same rowids deleted the same record. -/
theorem first_of_eraseP {p q : UInt64 × CatRecord → Bool} (hnodup : (recs.map Prod.fst).Nodup)
    (heq : (recs.eraseP p).map Prod.fst = (recs.eraseP q).map Prod.fst) (hq : ∃ r ∈ recs, q r = true) :
    ∀ r ∈ recs.find? p, q r = true := by
  intro r hr
  obtain ⟨hp, xs, ys, rfl, hxs⟩ := find?_eq_some_iff_append.mp hr
  by_contra hnot
  -- `q` deletes another record, and this one stays
  have hstay : r ∈ (xs ++ r :: ys).eraseP q := by
    rw [mem_eraseP_of_neg (by simpa using hnot)]
    simp
  have hgone : r.1 ∉ ((xs ++ r :: ys).eraseP p).map Prod.fst := by
    rw [eraseP_middle (fun x hx => by simpa using hxs x hx) hp]
    intro hin
    rw [map_append, map_cons] at hnodup
    rw [map_append] at hin
    have := nodup_middle.mp hnodup
    exact (nodup_cons.mp this).1 hin
  rw [heq] at hgone
  exact hgone (mem_map_of_mem hstay)

section

variable (h : d.cat.Rep ps recs) {α : Type} (k : ObjectKind α) {a : α} (ha : a ∈ k.get d.cat.cache)

include h k ha

/-- An object in memory has a record. -/
theorem exists_record {p : α → Bool} (hp : p a = true) : ∃ r ∈ recs, (k.as r.2).any p = true := by
  rw [h.cache, k.get_cacheOf] at ha
  obtain ⟨x, hx, hxa⟩ := mem_filterMap.mp ha
  obtain ⟨r, hr, rfl⟩ := mem_map.mp hx
  exact ⟨r, hr, by rw [hxa]; exact hp⟩

/-- `del_row` deletes the record of the object of a kind that is there exactly if the first record with
the name is of the kind. -/
theorem delRow_records_iff {name : Bytes} (hname : sameName (k.nameOf a) name = true) :
    (delRow d.cat.tree name).HasRows ps
        (recRows (recs.eraseP fun r => (k.as r.2).any fun a => sameName (k.nameOf a) name)) ↔
      FirstNamed d.cat.tree k.code name := by
  constructor
  · intro hrows
    have heq := recRows_unique (hasRows_delRecord h.rows h.ids _) hrows
    have hfirst := first_of_eraseP (nodup_ids h.rows) heq
      (exists_record h k (p := fun a => sameName (k.nameOf a) name) ha hname)
    rw [h.firstNamed]
    intro r hr
    rw [← k.as_isSome]
    have := hfirst r hr
    cases hk : k.as r.2 with
    | none => rw [hk] at this; cases this
    | some _ => rfl
  · intro hfirst
    exact (h.dropNamed k hfirst).rows

end

/-- The trees of the other tables are not among those of the first table with a name. -/
theorem Content.dataKept_dropTable (h : Content ps recs d) {name : Bytes} {t : TableDef}
    (ht : d.cat.findTable name = some t) {u : TableDef}
    (hu : u ∈ d.cat.cache.tables.eraseP fun t => sameName t.name name) {root : UInt32}
    (hroot : root ∈ treeRoots u) : (treeRoots t).foldl freeTree d.store root = d.store root := by
  refine foldl_freeTree_of_notMem _ ?_
  by_contra hin
  rw [not_or, not_not] at hin
  obtain ⟨hp, xs, ys, hsplit, hxs⟩ := find?_eq_some_iff_append.mp ht
  have hnodup := h.trees
  rw [hsplit, eraseP_middle (p := fun t : TableDef => sameName t.name name)
    (fun x hx => by simpa using hxs x hx) hp] at hu
  rw [hsplit, flatMap_append, flatMap_cons] at hnodup
  -- the trees of `t` can be moved to the front
  have hperm : (xs.flatMap treeRoots ++ (treeRoots t ++ ys.flatMap treeRoots)).Perm
      (treeRoots t ++ (xs ++ ys).flatMap treeRoots) := by
    rw [flatMap_append, ← append_assoc, ← append_assoc]
    exact perm_append_comm.append_right _
  have hnodup' := (hperm.filter _).nodup_iff.mp hnodup
  rw [filter_append, nodup_append] at hnodup'
  exact hnodup'.2.2 root (mem_filter.mpr ⟨hin.1, by simpa using hin.2⟩) root
    (mem_filter.mpr ⟨mem_flatMap_of_mem hu hroot, by simpa using hin.2⟩) rfl

/-! ## Indexes -/

theorem findIndex_spec {m : SchemaCache} {name : Bytes} {i pos : Nat} {t : TableDef}
    (h : findIndex m name = some (i, t, pos)) :
    m.tables[i]? = some t ∧ ∃ ix, t.indexes[pos]? = some ix := by
  simp only [findIndex, Option.bind_eq_bind, Option.bind_eq_some_iff, Option.pure_def,
    Option.some.injEq, Prod.mk.injEq] at h
  obtain ⟨j, -, u, hu, q, hq, rfl, rfl, rfl⟩ := h
  obtain ⟨hlt, -⟩ := findIdx?_eq_some_iff_getElem.mp hq
  exact ⟨hu, _, getElem?_eq_getElem hlt⟩

theorem fits_dropIndex {t : TableDef} (h : t.Fits) (pos : Nat) : (t.dropIndex pos).Fits := by
  obtain ⟨hstr, hcount, hstart, hend, hcol, hindex, hpart⟩ := h
  refine ⟨hstr, fun n hn => ?_, hstart, hend, hcol, fun ix hix => ?_, hpart⟩
  · simp only [TableDef.counts, TableDef.dropIndex, mem_cons] at hn
    rcases hn with rfl | rfl | hn
    · exact hcount _ (by simp [TableDef.counts])
    · exact lt_of_le_of_lt (length_eraseIdx_le _ _) (hcount _ (by simp [TableDef.counts]))
    · exact hcount n (by simp only [TableDef.counts, mem_cons]; tauto)
  · exact hindex ix ((eraseIdx_sublist _ _).subset hix)

/-- The trees of a table are those of the table without an index and the tree of the index. -/
theorem treeRoots_dropIndex {t : TableDef} {pos : Nat} {ix : Index} (hix : t.indexes[pos]? = some ix) :
    (treeRoots t).Perm (ix.root :: treeRoots (t.dropIndex pos)) := by
  obtain ⟨hlt, rfl⟩ := List.getElem?_eq_some_iff.mp hix
  have hperm : (t.indexes.map Index.root).Perm
      (t.indexes[pos].root :: (t.indexes.eraseIdx pos).map Index.root) := by
    rw [← map_cons]
    exact ((getElem_cons_eraseIdx_perm hlt).map Index.root).symm
  exact (hperm.append_left _).trans perm_middle

section

variable (h : Content ps recs d)

include h

/-- No other table has the name of a table. -/
theorem Content.eq_of_name {t u : TableDef} (ht : t ∈ d.cat.cache.tables) (hu : u ∈ d.cat.cache.tables)
    (hname : sameName u.name t.name = true) : u = t := by
  by_contra hne
  have : Std.Symm fun a b : TableDef => sameName a.name b.name = false := by
    refine ⟨fun a b hab => ?_⟩
    rw [← hab, Bool.eq_iff_iff, sameName_iff, sameName_iff, eq_comm]
  rw [h.names.forall hu ht hne] at hname
  cases hname

/-- The record of a table, which is the only one that shows its name as a table. -/
theorem Content.tableRecord {t : TableDef} (ht : t ∈ d.cat.cache.tables) :
    ∃ rid xs ys, findRecord d.cat.tree (namedRecord catTable t.name) = some rid ∧
      recs = xs ++ (rid, .table t) :: ys ∧
      (∀ x ∈ xs, ∀ v ∈ asTable x.2, sameName v.name t.name = false) ∧
      ∀ r ∈ xs ++ ys, r.2 ≠ .table t := by
  obtain ⟨q, hq, hqt⟩ := exists_record h.rep tableKind (p := fun u => sameName u.name t.name) ht
    (sameName_refl t.name)
  have hsome : (recs.find? fun r => namedRecord catTable t.name r.2.encode).isSome := by
    rw [find?_isSome]
    exact ⟨q, hq, by rw [namedRecord_table (h.rep.fits q hq)]; exact hqt⟩
  obtain ⟨r, hr⟩ := Option.isSome_iff_exists.mp hsome
  have hfind : findRecord d.cat.tree (namedRecord catTable t.name) = some r.1 := by
    rw [findRecord_eq h.rep.rows, hr]
    rfl
  obtain ⟨xs, u, ys, hrecs, hname, hxs⟩ := h.rep.findRecord_table hfind
  have htables : d.cat.cache.tables
      = (xs.map Prod.snd).filterMap asTable ++ u :: (ys.map Prod.snd).filterMap asTable := by
    rw [h.rep.cache, cacheOf_eq, hrecs]
    simp [asTable]
  obtain rfl : u = t := h.eq_of_name ht (by rw [htables]; simp) hname
  refine ⟨r.1, xs, ys, hfind, hrecs, hxs, fun x hx hxu => ?_⟩
  have hrefl := sameName_refl u.name
  rcases mem_append.mp hx with hx | hx
  · rw [hxs x hx u (by rw [hxu]; rfl)] at hrefl
    cases hrefl
  · -- a second record of the table would be a second table of its name
    have hnames := h.names
    rw [htables, pairwise_append, pairwise_cons] at hnames
    have hin : u ∈ (ys.map Prod.snd).filterMap asTable :=
      mem_filterMap.mpr ⟨x.2, mem_map_of_mem hx, by rw [hxu]; rfl⟩
    rw [hnames.2.1.1 u hin] at hrefl
    cases hrefl

/-- The tables in front of a table and behind it. -/
theorem Content.split {i : Nat} {t : TableDef} (hi : d.cat.cache.tables[i]? = some t) (t' : TableDef) :
    ∃ xs ys, d.cat.cache.tables = xs ++ t :: ys ∧
      d.cat.cache.setTableAt i t' = { d.cat.cache with tables := xs ++ t' :: ys } ∧
      d.cat.cache.setTable t.name t' = d.cat.cache.setTableAt i t' := by
  obtain ⟨xs, ys, htables, rfl⟩ : ∃ xs ys, d.cat.cache.tables = xs ++ t :: ys ∧ xs.length = i := by
    obtain ⟨hlt, rfl⟩ := List.getElem?_eq_some_iff.mp hi
    refine ⟨d.cat.cache.tables.take i, d.cat.cache.tables.drop (i + 1), ?_, by simp [hlt.le]⟩
    rw [← drop_eq_getElem_cons hlt, take_append_drop]
  have hnames := h.names
  rw [htables, pairwise_append] at hnames
  have hset : d.cat.cache.setTableAt xs.length t' = { d.cat.cache with tables := xs ++ t' :: ys } := by
    rw [SchemaCache.setTableAt, htables, set_append_right _ _ (le_refl _)]
    simp
  have hfirst : replaceFirst (fun u : TableDef => sameName u.name t.name) t' (xs ++ t :: ys)
      = xs ++ t' :: ys :=
    replaceFirst_middle (fun x hx => hnames.2.2 x hx t mem_cons_self) (sameName_refl t.name) t'
  refine ⟨xs, ys, htables, hset, ?_⟩
  rw [hset, SchemaCache.setTable, htables, hfirst]

/-- What DROP INDEX does when the index is there. -/
theorem Content.dropIndex (hps : 512 ≤ ps) (base : DdlEngine (Trees τ)) {s : Drop}
    (hword : s.word = .index) {i pos : Nat} {t : TableDef}
    (hfind : findIndex d.cat.cache s.name = some (i, t, pos)) :
    let r := execDrop (treeEngine ps base) d s
    r.rc = .ok ∧ IndexGone ps recs s.name d r.db ∧ r.db.plsql = d.plsql ∧ DataKept d r.db := by
  obtain ⟨hi, ix, hix⟩ := findIndex_spec hfind
  obtain ⟨rid, xs, ys, hrid, rfl, hxs, hother⟩ := h.tableRecord (mem_of_getElem? hi)
  obtain ⟨txs, tys, htables, hset, hsame⟩ := h.split hi (t.dropIndex pos)
  have hfits : t.Fits := h.rep.fits (rid, .table t) (by simp)
  have hrows := h.rep.rows
  rw [recRows, map_append, map_cons] at hrows
  obtain ⟨hrc, hrep⟩ := h.rep.replaceTable hps (sameName_refl t.name) hxs (fits_dropIndex hfits pos)
    (hrows.splitsFit_shrink hps (length_encode_dropIndex hfits pos))
  have hexec : execDrop (treeEngine ps base) d s
      = ⟨.ok, none,
          { d with cat := ⟨(d.cat.tree.put ps rid (CatRecord.table (t.dropIndex pos)).encode).2,
                      d.cat.cache.setTableAt i (t.dropIndex pos)⟩
                   store := freeTree d.store ix.root }⟩ := by
    have hname : (t.dropIndex pos).name = t.name := rfl
    rw [execDrop, hword]
    simp only [parseDrop, hfind, hix, treeEngine, State.updateTableAs, State.catalog, State.done,
      Catalog.updateTableAs, hname, hrid]
    rw [hrc]
  rw [hexec]
  refine ⟨rfl, ⟨?_, ?_⟩, rfl, fun u hu root hroot => ?_⟩
  · rw [hfind]
    rfl
  · rw [hfind]
    have hmap : ∀ zs : List (UInt64 × CatRecord), (∀ r ∈ zs, r.2 ≠ .table t) →
        (zs.map fun r => if r.2 = .table t then (r.1, .table (t.dropIndex pos)) else r) = zs := by
      intro zs hzs
      refine (map_congr_left fun r hr => if_neg (hzs r hr)).trans (map_id zs)
    simp only [Option.elim_some, map_append, map_cons, if_true]
    rw [hmap xs fun r hr => hother r (by simp [hr]), hmap ys fun r hr => hother r (by simp [hr])]
    exact hrep.rows
  · -- the tree of the index is not one of those that are left
    refine freeTree_of_ne ?_
    by_contra hin
    rw [not_or, not_not] at hin
    have hperm : (d.cat.cache.tables.flatMap treeRoots).Perm
        (ix.root :: (d.cat.cache.setTableAt i (t.dropIndex pos)).tables.flatMap treeRoots) := by
      rw [hset, htables, flatMap_append, flatMap_cons, flatMap_append, flatMap_cons]
      exact (((treeRoots_dropIndex hix).append_right _).append_left _).trans perm_middle
    have hnodup := (hperm.filter (· ≠ 0)).nodup_iff.mp h.trees
    rw [filter_cons_of_pos (by rw [← hin.1]; simpa using hin.2), nodup_cons] at hnodup
    exact hnodup.1 (mem_filter.mpr
      ⟨hin.1 ▸ mem_flatMap_of_mem hu hroot, by rw [← hin.1]; simpa using hin.2⟩)

end

section

variable (base : DdlEngine (Trees τ)) {s : Drop}

theorem execDrop_table {t : TableDef} (hkind : parseDrop s.word = .table)
    (ht : d.cat.findTable s.name = some t) :
    execDrop (treeEngine ps base) d s
      = ⟨.ok, none, { d with cat := d.cat.dropTable s.name
                             store := (treeRoots t).foldl freeTree d.store }⟩ := by
  rw [execDrop, hkind]
  simp only [ht]
  rfl

theorem execDrop_table_missing (hkind : parseDrop s.word = .table) (ht : d.cat.findTable s.name = none) :
    execDrop (treeEngine ps base) d s = d.missing s.ifExists (.sql (.noSuchTable s.name)) := by
  rw [execDrop, hkind]
  simp only [ht]

theorem missing_db (ifExists : Bool) (msg : DdlMsg) : (d.missing ifExists msg).db = d := by
  cases ifExists <;> rfl

theorem missing_rc (ifExists : Bool) (msg : DdlMsg) :
    (d.missing ifExists msg).rc = .ok ↔ ifExists = true := by
  cases ifExists <;> simp [State.missing, State.done, State.fail]

end

/-! ## DROP -/

/-- Where there is no object, nothing is removed. -/
theorem gone_of_none (h : Content ps recs d) {α : Type} (k : ObjectKind α) {p : α → Bool}
    (hnone : ∀ a ∈ k.get d.cat.cache, ¬ p a = true) : Gone ps recs k p d d := by
  refine ⟨?_, ?_⟩
  · rw [eraseP_of_forall_not hnone, k.set_get]
  · rw [eraseP_of_forall_not]
    · exact h.rep.rows
    · intro r hr hp
      cases ha : k.as r.2 with
      | none => rw [ha] at hp; cases hp
      | some a =>
        refine hnone a ?_ (by rwa [ha] at hp)
        rw [h.rep.cache, k.get_cacheOf]
        exact mem_filterMap.mpr ⟨r.2, mem_map_of_mem hr, ha⟩

/-- Words that drop a table without being TABLE: there must not be one, and what they name must not
be there if they report success. -/
theorem dropMeets_otherWord (base : DdlEngine (Trees τ)) (h : Content ps recs d) {s : Drop}
    (hkind : parseDrop s.word = .table)
    (hremoves : ∀ d', Removes ps recs s d d' → d'.cat.cache.tables = d.cat.cache.tables)
    {P : Prop} (hself : Removes ps recs s d d ↔ P) :
    DropMeets ps recs s d (execDrop (treeEngine ps base) d s) ↔
      d.cat.findTable s.name = none ∧ (s.ifExists = true → P) := by
  cases ht : d.cat.findTable s.name with
  | none =>
    rw [execDrop_table_missing base hkind ht, DropMeets, missing_db]
    by_cases hif : s.ifExists = true
    · rw [if_pos ((missing_rc _ _).mpr hif), hself]
      simp [hif]
    · rw [if_neg (fun hrc => hif ((missing_rc _ _).mp hrc))]
      simp [hif, h.unchanged]
  | some t =>
    rw [execDrop_table base hkind ht, DropMeets, if_pos rfl]
    refine iff_of_false (fun hrem => ?_) (by simp)
    have htables := congrArg List.length (hremoves _ hrem)
    have hmem : t ∈ d.cat.cache.tables := mem_of_find?_eq_some ht
    have hlen := length_eraseP_of_mem hmem (find?_some ht)
    have hpos := length_pos_of_mem hmem
    change (d.cat.cache.tables.eraseP fun t => sameName t.name s.name).length = _ at htables
    omega

section

variable (h : Content ps recs d)

include h

/-- Nothing is removed when there is no function, or no procedure, with the name. -/
theorem gone_routine_self (name : Bytes) (f : Bool) :
    (Gone ps recs routineKind (fun r => sameName r.name name && r.isFunction == f) d d ∧
      d.plsql = d.plsql.eraseP (fun r => sameName r.name name && r.isFunction == f) ∧ DataKept d d) ↔
      NoRoutine d name f := by
  have hplsql : d.plsql = d.plsql.eraseP (fun r => sameName r.name name && r.isFunction == f) ↔
      ∀ r ∈ d.plsql, ¬ (sameName r.name name = true ∧ r.isFunction = f) := by
    rw [eq_comm, eraseP_eq_self_iff]
    simp
  have hgone : Gone ps recs routineKind (fun r => sameName r.name name && r.isFunction == f) d d ↔
      ∀ r ∈ d.cat.cache.routines, ¬ (sameName r.name name = true ∧ r.isFunction = f) := by
    constructor
    · intro hgone r hr
      have heq := congrArg SchemaCache.routines hgone.cache
      have hnone := eraseP_eq_self_iff.mp heq.symm r hr
      simpa using hnone
    · intro hnone
      exact gone_of_none h routineKind fun r hr => by simpa using hnone r hr
  rw [hplsql, hgone, NoRoutine]
  simp only [DataKept, implies_true, and_true]

theorem dropMeets_table (base : DdlEngine (Trees τ)) {s : Drop} (hword : s.word = .table) :
    DropMeets ps recs s d (execDrop (treeEngine ps base) d s) ↔
      ((d.cat.findTable s.name).isSome → FirstNamed d.cat.tree catTable s.name) := by
  have hkind : parseDrop s.word = .table := by rw [hword]; rfl
  cases ht : d.cat.findTable s.name with
  | none =>
    have hnone := find?_eq_none.mp ht
    rw [execDrop_table_missing base hkind ht, DropMeets, missing_db]
    refine iff_of_true ?_ (by simp)
    split
    · rw [Removes, hword]
      exact ⟨gone_of_none h tableKind hnone, rfl, h.unchanged.dataKept⟩
    · exact h.unchanged
  | some t =>
    have hname : sameName t.name s.name = true := by
      have hp := find?_some ht
      exact hp
    have hrecords := delRow_records_iff h.rep tableKind (mem_of_find?_eq_some ht) hname
    rw [execDrop_table base hkind ht, DropMeets, if_pos rfl, Removes, hword]
    constructor
    · rintro ⟨hgone, -, -⟩ -
      exact hrecords.mp hgone.records
    · intro hfirst
      exact ⟨⟨rfl, hrecords.mpr (hfirst rfl)⟩, rfl, fun u hu root hroot => h.dataKept_dropTable ht hu hroot⟩

theorem dropMeets_view (base : DdlEngine (Trees τ)) {s : Drop} (hword : s.word = .view) :
    DropMeets ps recs s d (execDrop (treeEngine ps base) d s) ↔
      ((d.cat.findView s.name).isSome → FirstNamed d.cat.tree catView s.name) := by
  cases hv : d.cat.findView s.name with
  | none =>
    have hexec : execDrop (treeEngine ps base) d s = d.missing s.ifExists (.noSuchView s.name) := by
      rw [execDrop, hword]
      simp only [parseDrop, hv, Option.isNone_none, if_true]
    rw [hexec, DropMeets, missing_db]
    refine iff_of_true ?_ (by simp)
    split
    · rw [Removes, hword]
      exact ⟨gone_of_none h viewKind (find?_eq_none.mp hv), rfl, h.unchanged.dataKept⟩
    · exact h.unchanged
  | some v =>
    have hexec : execDrop (treeEngine ps base) d s
        = ⟨.ok, none, { d with cat := d.cat.dropView s.name }⟩ := by
      rw [execDrop, hword]
      simp only [parseDrop, hv, Option.isNone_some]
      rfl
    have hname : sameName v.name s.name = true := by
      have hp := find?_some hv
      exact hp
    have hrecords := delRow_records_iff h.rep viewKind (mem_of_find?_eq_some hv) hname
    rw [hexec, DropMeets, if_pos rfl, Removes, hword]
    constructor
    · rintro ⟨hgone, -, -⟩ -
      exact hrecords.mp hgone.records
    · intro hfirst
      exact ⟨⟨rfl, hrecords.mpr (hfirst rfl)⟩, rfl, fun u _ root _ => rfl⟩

theorem dropMeets_index (hps : 512 ≤ ps) (base : DdlEngine (Trees τ)) {s : Drop}
    (hword : s.word = .index) : DropMeets ps recs s d (execDrop (treeEngine ps base) d s) := by
  cases hfind : findIndex d.cat.cache s.name with
  | none =>
    have hexec : execDrop (treeEngine ps base) d s = d.missing s.ifExists (.noSuchIndex s.name) := by
      rw [execDrop, hword]
      simp only [parseDrop, hfind]
    rw [hexec, DropMeets, missing_db]
    split
    · rw [Removes, hword]
      refine ⟨⟨by rw [hfind]; rfl, ?_⟩, rfl, h.unchanged.dataKept⟩
      rw [hfind]
      exact h.rep.rows
    · exact h.unchanged
  | some r =>
    obtain ⟨i, t, pos⟩ := r
    obtain ⟨hrc, hgone, hplsql, hdata⟩ := h.dropIndex hps base hword hfind
    rw [DropMeets, if_pos hrc, Removes, hword]
    exact ⟨hgone, hplsql, hdata⟩

theorem dropMeets_tablespace (base : DdlEngine (Trees τ)) {s : Drop} (hword : s.word = .tablespace) :
    DropMeets ps recs s d (execDrop (treeEngine ps base) d s) := by
  have hfail : ∀ msg, DropMeets ps recs s d (d.fail msg) := fun msg => by
    rw [DropMeets, if_neg (by simp [State.fail])]
    exact h.unchanged
  have hdone : ∀ d', Removes ps recs s d d' → DropMeets ps recs s d (d'.done .ok) := fun d' hrem => by
    rw [DropMeets, if_pos (by rfl)]
    exact hrem
  rw [execDrop, hword]
  simp only [parseDrop]
  split
  · exact hfail _
  · split
    · exact hfail _
    · by_cases hex : d.cat.tablespaceExists s.name = true
      · obtain ⟨hrc, hrep⟩ := h.rep.tablespaceDrop s.ifExists hex
        rw [if_pos hex, show d.catalog (treeEngine ps base) (fun c => c.tablespaceDrop s.name s.ifExists)
          = (.ok, { d with cat := (d.cat.tablespaceDrop s.name s.ifExists).2 }) by rw [← hrc]; rfl]
        refine hdone _ ?_
        rw [Removes, hword]
        refine ⟨⟨?_, hrep.rows⟩, rfl, fun u _ root _ => rfl⟩
        show (d.cat.tablespaceDrop s.name s.ifExists).2.cache = _
        rw [Catalog.tablespaceDrop, if_pos hex]
        rfl
      · rw [if_neg hex]
        refine hdone _ ?_
        rw [Removes, hword]
        refine ⟨gone_of_none h tablespaceKind fun t ht hp => hex ?_, rfl, h.unchanged.dataKept⟩
        exact any_eq_true.mpr ⟨t, ht, hp⟩

end

/-- **DROP removes only what it names**, from every catalog that the statements make, exactly when
`DropSafe` holds: for a table or a view that is there, the first record with the name is one of its
kind; for FUNCTION, PROCEDURE and unknown words there is no table of the name, and nothing that they
name is passed over under IF EXISTS. -/
theorem drop_removes_only_iff (hps : 512 ≤ ps) (base : DdlEngine (Trees τ)) (h : Content ps recs d)
    (s : Drop) : DropMeets ps recs s d (execDrop (treeEngine ps base) d s) ↔ DropSafe s d := by
  obtain ⟨word, ifExists, name⟩ := s
  cases word with
  | table => exact dropMeets_table h base rfl
  | index => exact iff_of_true (dropMeets_index h hps base rfl) trivial
  | view => exact dropMeets_view h base rfl
  | tablespace => exact iff_of_true (dropMeets_tablespace h base rfl) trivial
  | function =>
    refine dropMeets_otherWord base h rfl (fun d' hrem => ?_) ?_
    · rw [hrem.1.cache]
      rfl
    · simpa [Removes] using gone_routine_self h name true
  | procedure =>
    refine dropMeets_otherWord base h rfl (fun d' hrem => ?_) ?_
    · rw [hrem.1.cache]
      rfl
    · simpa [Removes] using gone_routine_self h name false
  | other =>
    have hmeets := dropMeets_otherWord base h (s := ⟨.other, ifExists, name⟩) rfl
      (fun d' hrem => by rw [show d'.cat.cache = d.cat.cache from hrem.cache]) (P := True)
      (iff_of_true h.unchanged trivial)
    simpa [DropSafe] using hmeets

/-- A storage in which every call succeeds and does nothing. -/
def idleEngine (σ : Type) : DdlEngine σ where
  pageSize := 4096
  createTable := fun s t => (.ok, t, s)
  dropTable := fun s _ => (.ok, s)
  createIndex := fun s _ ix => (.ok, ix, s)
  dropIndex := fun s _ => (.ok, s)
  addColumn := fun s t => (.ok, t, s)
  dropColumn := fun s t _ => (.ok, t, s)
  insertRow := fun s _ _ => (.ok, s)
  catalogIo := fun s => (.ok, s)
  plsqlParse := fun _ _ => none
  luaDefine := fun _ _ => none

/-- A catalog after some operations, without data. -/
def stateAfter (ops : List CatOp) : State (Trees Unit) :=
  ⟨runCatalog 4096 ops (Catalog.create 4096 2), [], fun _ => none⟩

/-- A table and a view. -/
def tableAndView : List CatOp :=
  [.addTable { TableDef.new "t".toUTF8.toList with root := 5, historyRoot := 6 },
    .addView ⟨"v".toUTF8.toList, [], false, 0⟩]

theorem drop_removes_only_view : ∃ recs, Content 4096 recs (stateAfter tableAndView) ∧
    DropMeets 4096 recs ⟨.view, false, "V".toUTF8.toList⟩ (stateAfter tableAndView)
      (execDrop (treeEngine 4096 (idleEngine _)) (stateAfter tableAndView)
        ⟨.view, false, "V".toUTF8.toList⟩) := by
  obtain ⟨recs, hrep⟩ := runCatalog_rep (by decide) tableAndView (rep_create (by decide) 2)
    (show CatalogOps 4096 tableAndView (Catalog.create 4096 2) by decide +kernel)
  have hcontent : Content 4096 recs (stateAfter tableAndView) :=
    ⟨hrep, by decide +kernel, by decide +kernel⟩
  refine ⟨recs, hcontent, (drop_removes_only_iff (by decide) _ hcontent _).mpr fun _ => ?_⟩
  show FirstNamed (runCatalog 4096 tableAndView (Catalog.create 4096 2)).tree _ _
  decide +kernel

/-- A table and a view of one name. -/
def tableAndViewOfOneName : List CatOp :=
  [.addTable (.new "x".toUTF8.toList), .addView ⟨"x".toUTF8.toList, [], false, 0⟩]

/-- DROP VIEW deletes the record of the table, and DROP FUNCTION drops the table. -/
theorem drop_removes_other_object :
    let d := stateAfter tableAndViewOfOneName
    let E := treeEngine 4096 (idleEngine (Trees Unit))
    let afterView := (execDrop E d ⟨.view, false, "x".toUTF8.toList⟩).db
    let afterFunction := (execDrop E d ⟨.function, false, "x".toUTF8.toList⟩).db
    afterView.cat.cache.tables.length = 1 ∧ (catalogLoad afterView.cat.tree).tables = [] ∧
    (catalogLoad afterView.cat.tree).views.length = 1 ∧
    afterFunction.cat.cache.tables = [] ∧ d.cat.cache.tables.length = 1 := by
  decide +kernel

end Tdb.Ddl
