import TransactionDB.Catalog.Catalog

/-!
# TransactionDB — the records of the catalog

The catalog tree seen as the list of its records: the memory is a function of that list
(`cacheOf`), and what the catalog does to the tree, by rowids and by the bytes of the records, it
does to the list.
-/

namespace Tdb

open Reader BTree List

/-! ## The records of a catalog -/

/-- What loading a record adds to the memory. -/
def SchemaCache.add (c : SchemaCache) : CatRecord → SchemaCache
  | .table t => { c with tables := c.tables ++ [t] }
  | .view v => { c with views := c.views ++ [v] }
  | .routine r => { c with routines := c.routines ++ [r] }
  | .grant e => { c with acl := (aclGrant c.acl e.grantee e.priv e.kind e.object).2 }
  | .comment _ => c
  | .tablespace s => { c with tspaces := c.tspaces ++ [s] }

/-- The memory that the records make. -/
def cacheOf (recs : List CatRecord) : SchemaCache := recs.foldl SchemaCache.add .empty

theorem Reads.run_self {α : Type} {r : Reader UInt8 α} {w : Bytes} {a : α} (h : Reads r w a) :
    r.run w = some (a, []) := by
  simpa using h []

theorem loadRecord_encode (c : SchemaCache) {r : CatRecord} (h : r.Fits) :
    loadRecord c r.encode = c.add r := by
  cases r with
  | table t =>
    show loadRecord c (catTable :: serTable t) = _
    rw [loadRecord, if_pos rfl, Reads.run_self (reads_deserTable h)]
    rfl
  | view v =>
    show loadRecord c (catView :: serView v) = _
    rw [loadRecord, if_neg (by decide), if_pos rfl, Reads.run_self (reads_deserView h)]
    rfl
  | routine r =>
    show loadRecord c (catRoutine :: serRoutine r) = _
    rw [loadRecord, if_neg (by decide), if_neg (by decide), if_pos rfl,
      Reads.run_self (reads_deserRoutine h)]
    rfl
  | grant e =>
    show loadRecord c (catGrant :: serGrant e) = _
    rw [loadRecord, if_neg (by decide), if_neg (by decide), if_neg (by decide), if_pos rfl,
      Reads.run_self (reads_deserGrant h)]
    rfl
  | comment k =>
    show loadRecord c (catComment :: serComment k) = _
    rw [loadRecord, if_neg (by decide), if_neg (by decide), if_neg (by decide), if_neg (by decide),
      if_neg (by decide)]
    rfl
  | tablespace s =>
    show loadRecord c (catTablespace :: serTablespace s) = _
    rw [loadRecord, if_neg (by decide), if_neg (by decide), if_neg (by decide), if_neg (by decide),
      if_pos rfl, Reads.run_self (reads_deserTablespace h)]
    rfl

namespace CatRecord

def asTable : CatRecord → Option TableDef
  | table t => some t
  | _ => none

def asView : CatRecord → Option ViewDef
  | view v => some v
  | _ => none

def asRoutine : CatRecord → Option Routine
  | routine r => some r
  | _ => none

def asTablespace : CatRecord → Option Tablespace
  | tablespace s => some s
  | _ => none

/-- The entry that a grant makes. -/
def asEntry : CatRecord → Option AclEntry
  | grant e => if e.kind = 0 then none else some { e with priv := e.priv.map upperAscii }
  | _ => none

end CatRecord

open CatRecord

theorem add_acl (c : SchemaCache) (r : CatRecord) :
    (c.add r).acl = (asEntry r).toList.foldl aclAdd c.acl := by
  cases r with
  | grant e =>
    simp only [SchemaCache.add, aclGrant, asEntry]
    split <;> rfl
  | _ => rfl

/-- The objects of each kind in the order of their records. -/
theorem cacheOf_eq (recs : List CatRecord) :
    cacheOf recs =
      { tables := recs.filterMap asTable
        views := recs.filterMap asView
        routines := recs.filterMap asRoutine
        tspaces := recs.filterMap asTablespace
        acl := (recs.filterMap asEntry).foldl aclAdd [] } := by
  induction recs using List.reverseRecOn with
  | nil => rfl
  | append_singleton recs r ih =>
    have hadd : cacheOf (recs ++ [r]) = (cacheOf recs).add r := by simp [cacheOf]
    have hacl : (cacheOf (recs ++ [r])).acl = ((recs ++ [r]).filterMap asEntry).foldl aclAdd [] := by
      have hlast : [r].filterMap asEntry = (asEntry r).toList := by cases h : asEntry r <;> simp [h]
      rw [hadd, add_acl, ih, filterMap_append, foldl_append, hlast]
    ext1
    case acl => exact hacl
    all_goals
      rw [hadd, ih, filterMap_append]
      cases r <;> simp [SchemaCache.add, asTable, asView, asRoutine, asTablespace]

/-- The records of a list of records with rowids, as rows of the tree. -/
def recRows (recs : List (UInt64 × CatRecord)) : List (UInt64 × Bytes) :=
  recs.map fun r => (r.1, r.2.encode)

/-- The tree holds these records, and the memory is what they make. -/
structure Catalog.Rep (ps : Nat) (c : Catalog) (recs : List (UInt64 × CatRecord)) : Prop where
  rows : c.tree.HasRows ps (recRows recs)
  ids : ∀ r ∈ recs, r.1 ≠ 0
  fits : ∀ r ∈ recs, r.2.Fits
  cache : c.cache = cacheOf (recs.map Prod.snd)

theorem rep_create {ps : Nat} (hps : 512 ≤ ps) (pgno : Nat) : (Catalog.create ps pgno).Rep ps [] :=
  ⟨hasRows_create hps pgno, by simp, by simp, rfl⟩

theorem foldl_loadRecord (recs : List (UInt64 × CatRecord)) (h : ∀ r ∈ recs, r.2.Fits) :
    ∀ m : SchemaCache, (rowCells (recRows recs)).foldl (fun c e => loadRecord c e.2) m
      = (recs.map Prod.snd).foldl SchemaCache.add m := by
  induction recs with
  | nil => intro m; rfl
  | cons r recs ih =>
    intro m
    have hr := loadRecord_encode m (h r mem_cons_self)
    simp only [recRows, rowCells, map_cons, foldl_cons, hr]
    exact ih (forall_mem_cons.mp h).2 _

/-- Loading the records gives the memory. -/
theorem Catalog.Rep.load {ps : Nat} {c : Catalog} {recs : List (UInt64 × CatRecord)}
    (h : c.Rep ps recs) : catalogLoad c.tree = c.cache := by
  rw [catalogLoad, h.rows.entries, foldl_loadRecord recs h.fits, h.cache, cacheOf]

/-! ## Finding records -/

/-- The first element with a property is the one behind those without it. -/
theorem eraseP_middle {α : Type} {p : α → Bool} {xs ys : List α} {a : α} (hxs : ∀ x ∈ xs, ¬ p x = true)
    (ha : p a = true) : (xs ++ a :: ys).eraseP p = xs ++ ys := by
  rw [eraseP_append_right _ hxs, eraseP_cons_of_pos ha]

/-- It is the one that is replaced. -/
theorem replaceFirst_middle {α : Type} {p : α → Bool} {xs ys : List α} {a : α}
    (hxs : ∀ x ∈ xs, p x = false) (ha : p a = true) (b : α) :
    replaceFirst p b (xs ++ a :: ys) = xs ++ b :: ys := by
  induction xs with
  | nil => simp [replaceFirst, ha]
  | cons x xs ih =>
    have hx : p x = false := hxs x mem_cons_self
    simp [replaceFirst, hx, ih (forall_mem_cons.mp hxs).2]

section

variable {ps : Nat} {t : Root} {recs : List (UInt64 × CatRecord)}

theorem findRecord_eq (h : t.HasRows ps (recRows recs)) (p : Bytes → Bool) :
    findRecord t p = (recs.find? fun r => p r.2.encode).map Prod.fst := by
  rw [findRecord, h.entries, rowCells, recRows, map_map, find?_map, Option.map_map]
  congr 1
  funext r
  exact keyToRowid_rowidToKey r.1

theorem findRecords_eq (h : t.HasRows ps (recRows recs)) (p : Bytes → Bool) :
    findRecords t p = (recs.filter fun r => p r.2.encode).map Prod.fst := by
  rw [findRecords, h.entries, rowCells, recRows, map_map, filter_map, map_map]
  congr 1
  funext r
  exact keyToRowid_rowidToKey r.1

/-- Deleting rowids one after the other. -/
theorem hasRows_delRecords_ids (ids : List UInt64) : ∀ {t : Root} {rows : List (UInt64 × Bytes)},
    t.HasRows ps rows →
    (delRecords t ids).HasRows ps (rows.filter fun r => r.1 ∉ ids) := by
  induction ids with
  | nil => intro t rows h; simpa [delRecords] using h
  | cons id ids ih =>
    intro t rows h
    have hrest : (delRecords t (id :: ids)).HasRows ps _ := ih (h.del id)
    rw [filter_filter] at hrest
    simpa [Bool.and_comm] using hrest

/-- No rowid stands for two records. -/
theorem nodup_ids (h : t.HasRows ps (recRows recs)) : (recs.map Prod.fst).Nodup := by
  have hinc := h.increasing
  rw [recRows, pairwise_map] at hinc
  exact pairwise_map.mpr (hinc.imp UInt64.ne_of_lt)

/-- Deleting the records with a property keeps the others. -/
theorem hasRows_delRecords (h : t.HasRows ps (recRows recs)) (p : Bytes → Bool) :
    (delRecords t (findRecords t p)).HasRows ps
      (recRows (recs.filter fun r => !p r.2.encode)) := by
  have hdel := hasRows_delRecords_ids (findRecords t p) h
  have hfilter : (recRows recs).filter (fun r => r.1 ∉ findRecords t p)
      = recRows (recs.filter fun r => !p r.2.encode) := by
    rw [recRows, recRows, filter_map, findRecords_eq h]
    congr 1
    refine filter_congr fun r hr => ?_
    have hmem : r.1 ∈ (recs.filter fun r => p r.2.encode).map Prod.fst ↔ p r.2.encode = true := by
      rw [mem_map]
      constructor
      · rintro ⟨q, hq, hqr⟩
        rw [← inj_on_of_nodup_map (nodup_ids h) (mem_filter.mp hq).1 hr hqr]
        exact (mem_filter.mp hq).2
      · exact fun hp => ⟨r, mem_filter.mpr ⟨hr, hp⟩, rfl⟩
    simp [hmem]
  rwa [hfilter] at hdel

/-- The first record with the property is deleted. -/
theorem hasRows_delRecord (h : t.HasRows ps (recRows recs)) (hids : ∀ r ∈ recs, r.1 ≠ 0)
    (p : Bytes → Bool) :
    (delRecord t (findRecord t p)).HasRows ps (recRows (recs.eraseP fun r => p r.2.encode)) := by
  rw [findRecord_eq h]
  cases hfind : recs.find? fun r => p r.2.encode with
  | none =>
    rw [eraseP_of_forall_not fun r hr => find?_eq_none.mp hfind r hr]
    exact h
  | some r =>
    obtain ⟨hp, xs, ys, rfl, hxs⟩ := find?_eq_some_iff_append.mp hfind
    have hid : r.1 ≠ 0 := hids r (by simp)
    have hsplit : ∀ zs : List (UInt64 × CatRecord), recRows (xs ++ zs) = recRows xs ++ recRows zs :=
      fun zs => map_append
    rw [eraseP_middle (p := fun r : UInt64 × CatRecord => p r.2.encode)
      (fun x hx => by simpa using hxs x hx) hp]
    rw [hsplit] at h ⊢
    simp only [Option.map_some, delRecord, if_neg hid]
    exact h.del_at

end

/-! ## Names of records -/

theorem recordName_cons {s : Bytes} (code : UInt8) (h : StrFits (some s)) (rest : Bytes) :
    recordName (code :: (wStr (some s) ++ rest)) = some s := by
  rw [recordName, tail_cons, reads_rStr h rest]
  rfl

theorem recordName_table {t : TableDef} (h : t.Fits) :
    recordName (CatRecord.table t).encode = some t.name := by
  have hname : StrFits (some t.name) := h.1 _ (by simp [TableDef.strings])
  obtain ⟨rest, hrest⟩ := serTable_front t
  rw [encode, body, hrest]
  exact recordName_cons _ hname _

theorem recordName_view {v : ViewDef} (h : (CatRecord.view v).Fits) :
    recordName (CatRecord.view v).encode = some v.name := by
  simp only [encode, body, serView, append_assoc]
  exact recordName_cons _ h.1 _

theorem recordName_routine {r : Routine} (h : (CatRecord.routine r).Fits) :
    recordName (CatRecord.routine r).encode = some r.name := by
  simp only [encode, body, serRoutine, append_assoc]
  exact recordName_cons _ h.1 _

theorem recordName_tablespace {s : Tablespace} (h : (CatRecord.tablespace s).Fits) :
    recordName (CatRecord.tablespace s).encode = some s.name := recordName_cons _ h.1 _

theorem namedRecord_table {r : CatRecord} (h : r.Fits) (name : Bytes) :
    namedRecord catTable name r.encode = (asTable r).any fun t => sameName t.name name := by
  cases r with
  | table t =>
    rw [namedRecord, recordName_table h]
    rfl
  | _ => rfl

theorem namedRecord_tablespace {r : CatRecord} (h : r.Fits) (name : Bytes) :
    namedRecord catTablespace name r.encode = (asTablespace r).any fun s => sameName s.name name := by
  cases r with
  | tablespace s =>
    rw [namedRecord, recordName_tablespace h]
    rfl
  | _ => rfl

/-- A filter of `acl_match` lets through what the one of `tdb_acl_revoke` does. -/
theorem asks_not_any (wild want actual : Option Bytes) :
    (asks wild want && !(want.any fun w => actual.any (sameName w))) = !matchText wild want actual := by
  rcases want with - | (- | ⟨c, w⟩)
  · rfl
  · rfl
  · simp only [asks, matchText, ne_eq, reduceCtorEq, not_false_eq_true, decide_true, Bool.true_and, Option.any_some,
      Bool.not_or]

/-- The two matchers have the same rules. -/
theorem aclMatch_eq_revokes (e : AclEntry) (grantee priv : Option Bytes) (kind : UInt8) (object : Option Bytes) :
    aclMatch e grantee priv kind object = revokes grantee priv kind object e := by
  have hgrantee : (asks (some "PUBLIC".toUTF8.toList) grantee && !(grantee.any fun w => sameName w e.grantee)) =
      !matchGrantee grantee (some e.grantee) := asks_not_any _ grantee (some e.grantee)
  have hpriv : (asks (some "ALL".toUTF8.toList) priv && !(priv.any fun w => sameName w e.priv)) =
      !matchPriv priv (some e.priv) := asks_not_any _ priv (some e.priv)
  have hkind : (decide (kind ≠ 0) && decide (kind ≠ e.kind)) = !matchKind kind e.kind := by
    rw [matchKind, Bool.not_or, ← decide_not, ← decide_not]
  have hobject : (asks none object && !(object.any fun w => e.object.any (sameName w))) =
      !matchObject object e.object := asks_not_any none object e.object
  rw [aclMatch, revokes, hgrantee, hpriv, hkind, hobject]
  cases matchGrantee grantee (some e.grantee) <;> cases matchPriv priv (some e.priv) <;>
    cases matchKind kind e.kind <;> cases matchObject object e.object <;> rfl

theorem grantMatch_encode {r : CatRecord} (h : r.Fits) (grantee priv : Option Bytes) (kind : UInt8)
    (object : Option Bytes) :
    grantMatch grantee priv kind object r.encode
      = match r with
        | .grant e => revokes grantee priv kind object e
        | _ => false := by
  cases r with
  | grant e =>
    have hrun : deserGrant.run (CatRecord.encode (.grant e)).tail = some (e, []) :=
      Reads.run_self (reads_deserGrant h)
    rw [grantMatch, hrun]
    exact aclMatch_eq_revokes e grantee priv kind object
  | _ => rfl

theorem commentOn_encode {kind : UInt8} {target : Bytes} {r : CatRecord}
    (h : commentOn kind target r.encode = true) : ∃ k, r = .comment k := by
  cases r with
  | comment k => exact ⟨k, rfl⟩
  | _ => cases h

section

variable {α : Type} {as : CatRecord → Option α} {p : α → Bool} {xs ys : List CatRecord} {r : CatRecord}
  {a : α}

/-- The first object with a name goes away with the first record that has it. -/
theorem eraseP_filterMap (hr : as r = some a) (ha : p a = true)
    (hxs : ∀ x ∈ xs, ∀ b ∈ as x, p b = false) :
    ((xs ++ r :: ys).filterMap as).eraseP p = (xs ++ ys).filterMap as := by
  have hx : ∀ b ∈ xs.filterMap as, ¬ p b = true := by
    intro b hb
    obtain ⟨x, hx, hxb⟩ := mem_filterMap.mp hb
    simp [hxs x hx b hxb]
  rw [filterMap_append, filterMap_cons_some hr, eraseP_middle hx ha, filterMap_append]

/-- The first object with a name is replaced with the first record that has it. -/
theorem replaceFirst_filterMap (b : α) (hr : as r = some a) (ha : p a = true)
    (hxs : ∀ x ∈ xs, ∀ a ∈ as x, p a = false) :
    replaceFirst p b ((xs ++ r :: ys).filterMap as) = xs.filterMap as ++ b :: ys.filterMap as := by
  rw [filterMap_append, filterMap_cons_some hr]
  refine replaceFirst_middle (fun c hc => ?_) ha b
  obtain ⟨x, hx, hxc⟩ := mem_filterMap.mp hc
  exact hxs x hx c hxc

end

/-- Records that make nothing of a kind can go. -/
theorem filterMap_filter_of_none {α : Type} {as : CatRecord → Option α} {keep : CatRecord → Bool}
    {recs : List CatRecord} (h : ∀ r ∈ recs, keep r = false → as r = none) :
    (recs.filter keep).filterMap as = recs.filterMap as := by
  induction recs with
  | nil => rfl
  | cons r recs ih =>
    have ih := ih (forall_mem_cons.mp h).2
    cases hk : keep r with
    | true => simp [hk, filterMap_cons, ih]
    | false => simp [hk, h r mem_cons_self hk, ih]

/-! ## Lengths of records -/

theorem length_wNat_mono {m n : Nat} (h : m ≤ n) (hn : IntFits n) : (wNat m).length ≤ (wNat n).length := by
  have hlen : ∀ k, IntFits k → (wNat k).length = BTree.varintLen k := by
    intro k hk
    rw [wNat, wVar, putVarint, UInt64.toNat_ofNat', Nat.mod_eq_of_lt (by rw [IntFits] at hk; omega)]
    rfl
  rw [hlen m (lt_of_le_of_lt h hn), hlen n hn]
  exact BTree.varintLen_mono h

/-- A table without an index has a record that is not longer. -/
theorem length_encode_dropIndex {t : TableDef} (h : t.Fits) (pos : Nat) :
    (CatRecord.table (t.dropIndex pos)).encode.length ≤ (CatRecord.table t).encode.length := by
  have hcount : IntFits t.indexes.length := h.2.1 _ (by simp [TableDef.counts])
  have hn := length_wNat_mono (length_eraseIdx_le t.indexes pos) hcount
  have hcells : ((t.indexes.eraseIdx pos).flatMap serIndex).length ≤ (t.indexes.flatMap serIndex).length :=
    ((eraseIdx_sublist t.indexes pos).flatMap serIndex).length_le
  -- `delta`, since the equation of so long a definition is slow to make
  change (catTable :: serTable (t.dropIndex pos)).length ≤ (catTable :: serTable t).length
  delta serTable
  simp only [serTrailer, TableDef.dropIndex, length_cons, length_append]
  omega

/-- A property and a narrower one that the first element with the former has. -/
theorem eraseP_eq_of_first {α : Type} {p q : α → Bool} {l : List α} (hqp : ∀ a ∈ l, q a = true → p a = true)
    (hfirst : ∀ a ∈ l.find? p, q a = true) : l.eraseP p = l.eraseP q := by
  induction l with
  | nil => rfl
  | cons a l ih =>
    cases hp : p a with
    | true =>
      have hq : q a = true := hfirst a (by simp [hp])
      rw [eraseP_cons_of_pos hp, eraseP_cons_of_pos hq]
    | false =>
      have hq : q a = false := by
        rw [← Bool.not_eq_true]
        intro hqa
        rw [hqp a mem_cons_self hqa] at hp
        cases hp
      rw [eraseP_cons_of_neg (by simp [hp]), eraseP_cons_of_neg (by simp [hq]),
        ih (forall_mem_cons.mp hqp).2
          (fun b hb => hfirst b (by simpa [hp] using hb))]

/-! ## Kinds of objects -/

/-- The objects of one kind: how they are read off the records and where they are in memory. -/
structure ObjectKind (α : Type) where
  code : UInt8
  nameOf : α → Bytes
  as : CatRecord → Option α
  get : SchemaCache → List α
  set : SchemaCache → List α → SchemaCache
  as_isSome : ∀ r, (as r).isSome ↔ r.code = code
  name_shown : ∀ r a, r.Fits → as r = some a → recordName r.encode = some (nameOf a)
  get_cacheOf : ∀ rs, get (cacheOf rs) = rs.filterMap as
  set_get : ∀ m, set m (get m) = m
  /-- Without a record of the kind, the memory has other objects of the kind and nothing else. -/
  set_erase : ∀ xs r ys, (as r).isSome →
    set (cacheOf (xs ++ r :: ys)) ((xs ++ ys).filterMap as) = cacheOf (xs ++ ys)

/-- Without the first record that makes a certain object, the memory is without the first such object. -/
theorem ObjectKind.set_eraseP {α : Type} (k : ObjectKind α) (named : α → Bool) (rs : List CatRecord) :
    k.set (cacheOf rs) ((k.get (cacheOf rs)).eraseP named)
      = cacheOf (rs.eraseP fun r => (k.as r).any named) := by
  rw [k.get_cacheOf]
  cases hfind : rs.find? fun r => (k.as r).any named with
  | none =>
    have hnone := find?_eq_none.mp hfind
    have hobjects : ∀ a ∈ rs.filterMap k.as, ¬ named a = true := by
      intro a ha hnamed
      obtain ⟨r, hr, hra⟩ := mem_filterMap.mp ha
      exact hnone r hr (by rw [hra]; exact hnamed)
    rw [eraseP_of_forall_not hobjects, eraseP_of_forall_not hnone, ← k.get_cacheOf, k.set_get]
  | some r =>
    obtain ⟨hr, xs, ys, rfl, hxs⟩ := find?_eq_some_iff_append.mp hfind
    have hxs' : ∀ x ∈ xs, ¬ (k.as x).any named = true := fun x hx => by simpa using hxs x hx
    cases ha : k.as r with
    | none => rw [ha] at hr; cases hr
    | some a =>
      have hnamed : named a = true := by rw [ha] at hr; exact hr
      rw [eraseP_filterMap ha hnamed, eraseP_middle (p := fun r => (k.as r).any named) hxs' hr]
      · exact k.set_erase _ _ _ (by rw [ha]; rfl)
      · intro x hx b hb
        have := hxs' x hx
        rw [show k.as x = some b from hb] at this
        simpa using this

def tableKind : ObjectKind TableDef where
  code := catTable
  nameOf := TableDef.name
  as := asTable
  get := SchemaCache.tables
  set := fun m tables => { m with tables }
  as_isSome := fun r => by
    cases r <;> simp only [asTable, CatRecord.code, Option.isSome_some, Option.isSome_none] <;> decide
  name_shown := fun r a hr ha => by cases r <;> cases ha; exact recordName_table hr
  get_cacheOf := fun rs => by rw [cacheOf_eq]
  set_get := fun _ => rfl
  set_erase := fun xs r ys hr => by
    cases r with
    | table a => simp [cacheOf_eq, filterMap_cons, asView, asRoutine, asTablespace, asEntry]
    | _ => cases hr

def viewKind : ObjectKind ViewDef where
  code := catView
  nameOf := ViewDef.name
  as := asView
  get := SchemaCache.views
  set := fun m views => { m with views }
  as_isSome := fun r => by
    cases r <;> simp only [asView, CatRecord.code, Option.isSome_some, Option.isSome_none] <;> decide
  name_shown := fun r a hr ha => by cases r <;> cases ha; exact recordName_view hr
  get_cacheOf := fun rs => by rw [cacheOf_eq]
  set_get := fun _ => rfl
  set_erase := fun xs r ys hr => by
    cases r with
    | view a => simp [cacheOf_eq, filterMap_cons, asTable, asRoutine, asTablespace, asEntry]
    | _ => cases hr

def routineKind : ObjectKind Routine where
  code := catRoutine
  nameOf := Routine.name
  as := asRoutine
  get := SchemaCache.routines
  set := fun m routines => { m with routines }
  as_isSome := fun r => by
    cases r <;> simp only [asRoutine, CatRecord.code, Option.isSome_some, Option.isSome_none] <;> decide
  name_shown := fun r a hr ha => by cases r <;> cases ha; exact recordName_routine hr
  get_cacheOf := fun rs => by rw [cacheOf_eq]
  set_get := fun _ => rfl
  set_erase := fun xs r ys hr => by
    cases r with
    | routine a => simp [cacheOf_eq, filterMap_cons, asTable, asView, asTablespace, asEntry]
    | _ => cases hr

def tablespaceKind : ObjectKind Tablespace where
  code := catTablespace
  nameOf := Tablespace.name
  as := asTablespace
  get := SchemaCache.tspaces
  set := fun m tspaces => { m with tspaces }
  as_isSome := fun r => by
    cases r <;> simp only [asTablespace, CatRecord.code, Option.isSome_some, Option.isSome_none] <;> decide
  name_shown := fun r a hr ha => by cases r <;> cases ha; exact recordName_tablespace hr
  get_cacheOf := fun rs => by rw [cacheOf_eq]
  set_get := fun _ => rfl
  set_erase := fun xs r ys hr => by
    cases r with
    | tablespace a => simp [cacheOf_eq, filterMap_cons, asTable, asView, asRoutine, asEntry]
    | _ => cases hr

end Tdb
