import TransactionDB.Catalog.CatalogRep

/-!
# TransactionDB — the catalog in memory and in the file

What `catalog_load` makes of the records is what is in memory, after any sequence of successful
operations in which

* a new record gets a rowid behind all others (the rightmost leaf is not empty), and at the splits
  of the tree both halves fit,
* the first record that has the name of a dropped object is a record of its kind.

Without the second a table, a view and a routine of one name lose the wrong record.
-/

namespace Tdb

open Reader BTree CatRecord List

/-! ## What can go wrong -/

/-- The rowid of a new record is behind all others, and it fits into the tree. -/
def PutFits (ps : Nat) (t : Root) (r : CatRecord) : Prop :=
  t.maxRowid + 1 ≠ 0 ∧ (∀ e ∈ t.entries, keyToRowid e.1 < t.maxRowid + 1) ∧
    t.SplitsFit ps (btCmp .table) (rowidToKey (t.maxRowid + 1)) r.encode

instance (ps : Nat) (t : Root) (r : CatRecord) : Decidable (PutFits ps t r) :=
  inferInstanceAs (Decidable (_ ∧ _))

/-- The first record with the name is of the kind. -/
def FirstNamed (t : Root) (code : UInt8) (name : Bytes) : Prop :=
  ∀ e ∈ t.entries.find? fun e => (recordName e.2).any (sameName · name), e.2.head? = some code

instance (t : Root) (code : UInt8) (name : Bytes) : Decidable (FirstNamed t code name) :=
  inferInstanceAs (Decidable (∀ e ∈ _, _))

/-! ## One operation -/

section

variable {ps : Nat} {c : Catalog} {recs : List (UInt64 × CatRecord)}

section

variable (hps : 512 ≤ ps) (h : c.Rep ps recs) {r : CatRecord} (hr : r.Fits) (hput : PutFits ps c.tree r)

include hps h hr hput

/-- A new record goes behind all others. -/
theorem Catalog.Rep.put :
    (catalogPut ps c.tree r).1 = .ok ∧
      Catalog.Rep ps ⟨(catalogPut ps c.tree r).2, c.cache.add r⟩
        (recs ++ [(c.tree.maxRowid + 1, r)]) := by
  obtain ⟨hid, hlast, hfit⟩ := hput
  have hlast' : ∀ q ∈ recRows recs, q.1 < c.tree.maxRowid + 1 := by
    intro q hq
    have hmem : (rowidToKey q.1, q.2) ∈ c.tree.entries := by
      rw [h.rows.entries]
      exact mem_map_of_mem hq
    simpa [keyToRowid_rowidToKey] using hlast _ hmem
  obtain ⟨hrc, hrows⟩ := h.rows.put_last hps hlast' hfit
  refine ⟨hrc, by simpa [recRows, catalogPut] using hrows, ?_, ?_, ?_⟩
  · intro q hq
    rcases mem_append.mp hq with hq | hq
    · exact h.ids q hq
    · rw [mem_singleton.mp hq]
      exact hid
  · intro q hq
    rcases mem_append.mp hq with hq | hq
    · exact h.fits q hq
    · rw [mem_singleton.mp hq]
      exact hr
  · show c.cache.add r = _
    rw [h.cache]
    simp [cacheOf]

/-- The memory changes as the records do, before or after the record is written. -/
theorem Catalog.Rep.add {m : SchemaCache} {f : SchemaCache → SchemaCache} (hf : f m = c.cache.add r) :
    ∃ recs', (Catalog.add ps { c with cache := m } r f).2.Rep ps recs' := by
  obtain ⟨hrc, hrep⟩ := h.put hps hr hput
  have hadd : Catalog.add ps { c with cache := m } r f
      = (.ok, ⟨(catalogPut ps c.tree r).2, f m⟩) := by
    rw [Catalog.add, show catalogPut ps c.tree r = (.ok, _) from Prod.ext hrc rfl]
  rw [hadd, hf]
  exact ⟨_, hrep⟩

end

section

variable (h : c.Rep ps recs)

include h

/-- A tree that keeps some of the records, with a memory that keeps what they make. -/
theorem Catalog.Rep.sublist {c' : Catalog} {recs' : List (UInt64 × CatRecord)}
    (hsub : recs'.Sublist recs) (hrows : c'.tree.HasRows ps (recRows recs'))
    (hcache : c'.cache = cacheOf (recs'.map Prod.snd)) : c'.Rep ps recs' :=
  ⟨hrows, fun r hr => h.ids r (hsub.subset hr), fun r hr => h.fits r (hsub.subset hr), hcache⟩

/-- A record goes away together with the object it makes, when the first record that is found makes
such an object. -/
theorem Catalog.Rep.drop {α : Type} (k : ObjectKind α) {named : α → Bool} {p : Bytes → Bool}
    (hshow : ∀ r ∈ recs, (k.as r.2).any named = true → p r.2.encode = true)
    (hfirst : ∀ r ∈ recs.find? (fun r => p r.2.encode), (k.as r.2).any named = true) :
    Catalog.Rep ps ⟨delRecord c.tree (findRecord c.tree p),
      k.set c.cache ((k.get c.cache).eraseP named)⟩ (recs.eraseP fun r => (k.as r.2).any named) := by
  refine h.sublist eraseP_sublist ?_ ?_
  · rw [← eraseP_eq_of_first hshow hfirst]
    exact hasRows_delRecord h.rows h.ids p
  · show k.set c.cache _ = _
    rw [h.cache, k.set_eraseP, eraseP_map]
    rfl

section

variable {name : Bytes}

/-- The first record with the name, in the tree and in the list. -/
theorem Catalog.Rep.firstNamed {code : UInt8} :
    FirstNamed c.tree code name ↔
      ∀ r ∈ recs.find? (fun r => (recordName r.2.encode).any (sameName · name)), r.2.code = code := by
  rw [FirstNamed, h.rows.entries, rowCells, recRows, map_map, find?_map]
  simp only [Option.mem_map, forall_exists_index, and_imp, Function.comp_def]
  constructor
  · intro hall r hr
    exact Option.some.inj (hall _ r hr rfl)
  · rintro hall e r hr rfl
    exact congrArg some (hall r hr)

/-- The record of an object shows its name. -/
theorem Catalog.Rep.shown {α : Type} (k : ObjectKind α) {r : UInt64 × CatRecord} (hr : r ∈ recs) {a : α}
    (ha : k.as r.2 = some a) :
    (recordName r.2.encode).any (sameName · name) = sameName (k.nameOf a) name := by
  rw [k.name_shown r.2 a (h.fits r hr) ha]
  rfl

/-- `tdb_catalog_drop_table`, `tdb_catalog_drop_view` and `tdb_catalog_drop_routine` when the first
record with the name is of the kind. -/
theorem Catalog.Rep.dropNamed {α : Type} (k : ObjectKind α) (hfirst : FirstNamed c.tree k.code name) :
    Catalog.Rep ps ⟨delRow c.tree name,
        k.set c.cache ((k.get c.cache).eraseP fun a => sameName (k.nameOf a) name)⟩
      (recs.eraseP fun r => (k.as r.2).any fun a => sameName (k.nameOf a) name) := by
  refine h.drop k (fun r hr hnamed => ?_) fun r hr => ?_
  · cases ha : k.as r.2 with
    | none => rw [ha] at hnamed; cases hnamed
    | some a =>
      rw [h.shown k hr ha]
      rwa [ha] at hnamed
  · obtain ⟨a, ha⟩ := Option.isSome_iff_exists.mp ((k.as_isSome r.2).mpr (h.firstNamed.mp hfirst r hr))
    have hp := find?_some hr
    rw [h.shown k (mem_of_find?_eq_some hr) ha] at hp
    rw [ha]
    exact hp

/-- The record of a tablespace is found by its kind, so that no other goes away. -/
theorem Catalog.Rep.tablespaceDrop (ifExists : Bool) (hex : c.tablespaceExists name = true) :
    (c.tablespaceDrop name ifExists).1 = .ok ∧ (c.tablespaceDrop name ifExists).2.Rep ps
      (recs.eraseP fun r => (asTablespace r.2).any fun s => sameName s.name name) := by
  rw [Catalog.tablespaceDrop, if_pos hex]
  refine ⟨rfl, h.drop tablespaceKind (fun r hr hnamed => ?_) fun r hr => ?_⟩
  · rw [namedRecord_tablespace (h.fits r hr)]
    exact hnamed
  · have hp := find?_some hr
    rwa [namedRecord_tablespace (h.fits r (mem_of_find?_eq_some hr))] at hp

/-- The record that `tdb_catalog_update_table_as` finds is that of the first table with the name. -/
theorem Catalog.Rep.findRecord_table {rid : UInt64}
    (hfind : findRecord c.tree (namedRecord catTable name) = some rid) :
    ∃ xs u ys, recs = xs ++ (rid, .table u) :: ys ∧ sameName u.name name = true ∧
      ∀ x ∈ xs, ∀ v ∈ asTable x.2, sameName v.name name = false := by
  rw [findRecord_eq h.rows] at hfind
  obtain ⟨⟨id, r⟩, hr, rfl⟩ := Option.map_eq_some_iff.mp hfind
  obtain ⟨hnamed, xs, ys, rfl, hxs⟩ := find?_eq_some_iff_append.mp hr
  rw [namedRecord_table (h.fits (id, r) (by simp))] at hnamed
  cases r with
  | table u =>
    refine ⟨xs, u, ys, rfl, hnamed, fun x hx v hv => ?_⟩
    have hnot := hxs x hx
    rw [namedRecord_table (h.fits x (by simp [hx])), show asTable x.2 = some v from hv] at hnot
    simpa using hnot
  | _ => cases hnamed

end

end

/-- A table changes in memory, and its record is written over. -/
theorem Catalog.Rep.replaceTable (hps : 512 ≤ ps) {xs ys : List (UInt64 × CatRecord)} {rid : UInt64}
    {u t : TableDef} {name : Bytes} (h : c.Rep ps (xs ++ (rid, .table u) :: ys))
    (hname : sameName u.name name = true)
    (hxs : ∀ x ∈ xs, ∀ v ∈ asTable x.2, sameName v.name name = false) (ht : t.Fits)
    (hfit : c.tree.SplitsFit ps (btCmp .table) (rowidToKey rid) (CatRecord.table t).encode) :
    (c.tree.put ps rid (CatRecord.table t).encode).1 = .ok ∧
      Catalog.Rep ps ⟨(c.tree.put ps rid (CatRecord.table t).encode).2, c.cache.setTable name t⟩
        (xs ++ (rid, .table t) :: ys) := by
  have hrows := h.rows
  rw [recRows, map_append, map_cons] at hrows
  obtain ⟨hrc, hrows'⟩ := hrows.put_at hps hfit
  -- a record of the new list is the new one or one of the old ones
  have hmem : ∀ q ∈ xs ++ (rid, CatRecord.table t) :: ys,
      q = (rid, .table t) ∨ q ∈ xs ++ (rid, .table u) :: ys := by
    intro q hq
    simp only [mem_append, mem_cons] at hq ⊢
    tauto
  refine ⟨hrc, by simpa [recRows] using hrows', fun q hq => ?_, fun q hq => ?_, ?_⟩
  · rcases hmem q hq with rfl | hq
    · exact h.ids (rid, .table u) (by simp)
    · exact h.ids q hq
  · rcases hmem q hq with rfl | hq
    · exact ht
    · exact h.fits q hq
  · have hfirst : ∀ x ∈ xs.map Prod.snd, ∀ v ∈ asTable x, sameName v.name name = false := by
      intro x hx v hv
      obtain ⟨q, hq, rfl⟩ := mem_map.mp hx
      exact hxs q hq v hv
    have htables : replaceFirst (fun v => sameName v.name name) t
        ((xs.map Prod.snd ++ .table u :: ys.map Prod.snd).filterMap asTable) = _ :=
      replaceFirst_filterMap t rfl hname hfirst
    show c.cache.setTable name t = _
    rw [h.cache, cacheOf_eq, cacheOf_eq, SchemaCache.setTable]
    simp only [map_append, map_cons]
    rw [htables]
    simp [filterMap_cons, asTable, asView, asRoutine, asTablespace, asEntry]

theorem Catalog.Rep.updateTable (hps : 512 ≤ ps) (h : c.Rep ps recs) {name : Bytes} {t : TableDef}
    (ht : t.Fits)
    (hfit : ∀ rid ∈ findRecord c.tree (namedRecord catTable name),
      c.tree.SplitsFit ps (btCmp .table) (rowidToKey rid) (CatRecord.table t).encode)
    {c' : Catalog} (hupd : Catalog.updateTableAs ps { c with cache := c.cache.setTable name t } name t
      = (.ok, c')) : ∃ recs', c'.Rep ps recs' := by
  rw [Catalog.updateTableAs] at hupd
  cases hfind : findRecord c.tree (namedRecord catTable name) with
  | none => rw [hfind] at hupd; cases hupd
  | some rid =>
    rw [hfind] at hfit hupd
    obtain ⟨xs, u, ys, rfl, hname, hxs⟩ := h.findRecord_table hfind
    obtain ⟨-, hrep⟩ := h.replaceTable hps hname hxs ht (hfit rid rfl)
    exact ⟨_, (Prod.mk.inj hupd).2 ▸ hrep⟩

/-- Records that make nothing can go. -/
theorem Catalog.Rep.delComments (h : c.Rep ps recs) (kind : UInt8) (target : Bytes) :
    ∃ recs', Catalog.Rep ps
      { c with tree := delRecords c.tree (findRecords c.tree (commentOn kind target)) } recs' := by
  refine ⟨_, h.sublist filter_sublist (hasRows_delRecords h.rows _) ?_⟩
  have hnone : ∀ r : CatRecord, (!commentOn kind target r.encode) = false → ∃ k, r = .comment k :=
    fun r hr => commentOn_encode (by simpa using hr)
  have hmap : (recs.filter fun r => !commentOn kind target r.2.encode).map Prod.snd
      = (recs.map Prod.snd).filter fun r => !commentOn kind target r.encode := by
    rw [filter_map]
    rfl
  show c.cache = _
  have hsame : ∀ {α : Type} {as : CatRecord → Option α}, (∀ k, as (.comment k) = none) →
      ((recs.map Prod.snd).filter fun r => !commentOn kind target r.encode).filterMap as
        = (recs.map Prod.snd).filterMap as := by
    intro α as has
    refine filterMap_filter_of_none fun r _ hr => ?_
    obtain ⟨k, rfl⟩ := hnone r hr
    exact has k
  rw [h.cache, hmap, cacheOf_eq, cacheOf_eq, hsame fun _ => rfl, hsame fun _ => rfl,
    hsame fun _ => rfl, hsame fun _ => rfl, hsame fun _ => rfl]

/-- What the records make without those that a revocation matches. -/
theorem cacheOf_revoke {rs : List CatRecord} (hfits : ∀ r ∈ rs, r.Fits) (grantee priv : Option Bytes) (kind : UInt8)
    (object : Option Bytes) :
    cacheOf (rs.filter fun r => !grantMatch grantee priv kind object r.encode) =
      { cacheOf rs with acl := aclRevoke (cacheOf rs).acl grantee priv kind object } := by
  have hgrant : ∀ r ∈ rs, (!grantMatch grantee priv kind object r.encode) = false → ∃ e, r = .grant e := by
    intro r hr hmatch
    rw [grantMatch_encode (hfits r hr)] at hmatch
    cases r with
    | grant e => exact ⟨e, rfl⟩
    | _ => cases hmatch
  have hsame : ∀ {α : Type} {as : CatRecord → Option α}, (∀ e, as (.grant e) = none) →
      (rs.filter fun r => !grantMatch grantee priv kind object r.encode).filterMap as
        = rs.filterMap as := by
    intro α as has
    refine filterMap_filter_of_none fun r hr hmatch => ?_
    obtain ⟨e, rfl⟩ := hgrant r hr hmatch
    exact has e
  have hentry : (rs.filter fun r => !grantMatch grantee priv kind object r.encode).filterMap asEntry
      = (rs.filterMap asEntry).filter fun e => !revokes grantee priv kind object e := by
    rw [filterMap_filter, filter_filterMap]
    refine filterMap_congr fun r hr => ?_
    rw [grantMatch_encode (hfits r hr)]
    cases r with
    | grant e =>
      -- the case of the privilege does not matter
      have hcase : revokes grantee priv kind object { e with priv := e.priv.map upperAscii }
          = revokes grantee priv kind object e :=
        revokes_congr (by simp [AclEntry.folded, Function.comp_def, lowerAscii_upperAscii]) _ _ _ _
      by_cases hk : e.kind = 0
      · simp [asEntry, hk]
      · cases hrev : revokes grantee priv kind object e <;>
          simp [asEntry, hk, hcase, hrev, Option.filter]
    | _ => rfl
  rw [cacheOf_eq, cacheOf_eq, hsame fun _ => rfl, hsame fun _ => rfl, hsame fun _ => rfl,
    hsame fun _ => rfl, hentry]
  have hacl : ((rs.filterMap asEntry).foldl aclAdd []).filter
      (fun e => !revokes grantee priv kind object e) = _ :=
    foldl_add_filter (fun a b hab => by rw [revokes_congr hab]) _ []
  rw [aclRevoke, hacl, filter_nil]

/-- A revocation takes the entries out of memory that it takes out of the records. -/
theorem Catalog.Rep.revoke (h : c.Rep ps recs) (grantee priv : Option Bytes) (kind : UInt8)
    (object : Option Bytes) :
    ∃ recs', Catalog.Rep ps (Catalog.aclUnpersist
      { c with cache := { c.cache with acl := aclRevoke c.cache.acl grantee priv kind object } }
      grantee priv kind object) recs' := by
  refine ⟨_, h.sublist filter_sublist (hasRows_delRecords h.rows _) ?_⟩
  have hmap : (recs.filter fun r => !grantMatch grantee priv kind object r.2.encode).map Prod.snd
      = (recs.map Prod.snd).filter fun r => !grantMatch grantee priv kind object r.encode := by
    rw [filter_map]
    rfl
  have hfits : ∀ r ∈ recs.map Prod.snd, r.Fits := by
    intro r hr
    obtain ⟨q, hq, rfl⟩ := mem_map.mp hr
    exact h.fits q hq
  rw [hmap, cacheOf_revoke hfits, ← h.cache]
  rfl

end

/-! ## Runs -/

/-- What is asked of the catalog. A table is changed in memory by whoever asks for the update, under
the name it had; a grant is added to the list in memory and then written. -/
inductive CatOp where
  | addTable (t : TableDef)
  | addView (v : ViewDef)
  | addRoutine (r : Routine)
  | updateTable (name : Bytes) (t : TableDef)
  | dropTable (name : Bytes)
  | dropView (name : Bytes)
  | dropRoutine (name : Bytes)
  | tablespaceCreate (name : Bytes) (location : Option Bytes) (ifNotExists : Bool)
  | tablespaceDrop (name : Bytes) (ifExists : Bool)
  | setComment (kind : UInt8) (target body : Option Bytes)
  | grant (grantee priv : Option Bytes) (kind : UInt8) (object : Option Bytes)
  | revoke (grantee priv : Option Bytes) (kind : UInt8) (object : Option Bytes)
  deriving DecidableEq, Repr

namespace CatOp

def exec (ps : Nat) (c : Catalog) : CatOp → Status × Catalog
  | addTable t => c.addTable ps t
  | addView v => c.addView ps v
  | addRoutine r => c.addRoutine ps r
  | updateTable name t =>
    match c.findTable name with
    | none => (.error, c)
    | some _ => Catalog.updateTableAs ps { c with cache := c.cache.setTable name t } name t
  | dropTable name => (.ok, c.dropTable name)
  | dropView name => (.ok, c.dropView name)
  | dropRoutine name => (.ok, c.dropRoutine name)
  | tablespaceCreate name location ifNotExists => c.tablespaceCreate ps name location ifNotExists
  | tablespaceDrop name ifExists => c.tablespaceDrop name ifExists
  | setComment kind target body => c.setComment ps kind target body
  | grant grantee priv kind object =>
    match aclGrant c.cache.acl grantee priv kind object with
    | (.ok, acl) =>
      Catalog.aclPersist ps { c with cache := { c.cache with acl } }
        ⟨grantee.getD [], priv.getD [], kind, object⟩
    | (rc, _) => (rc, c)
  | revoke grantee priv kind object =>
    (.ok, Catalog.aclUnpersist
      { c with cache := { c.cache with acl := aclRevoke c.cache.acl grantee priv kind object } }
      grantee priv kind object)

/-- The record that the operation writes. -/
def record : CatOp → Option CatRecord
  | addTable t => some (.table t)
  | addView v => some (.view v)
  | addRoutine r => some (.routine r)
  | updateTable _ t => some (.table t)
  | tablespaceCreate name location _ => some (.tablespace ⟨name, location⟩)
  | setComment kind (some target) (some body) => some (.comment ⟨kind, target, body⟩)
  | grant (some grantee) (some priv) kind object => some (.grant ⟨grantee, priv, kind, object⟩)
  | _ => none

/-- The operation meets the two conditions in this catalog: what it writes fits, and what it drops by
its name is the first record of that name. -/
def Sound (ps : Nat) (c : Catalog) : CatOp → Prop
  | addTable t => PutFits ps c.tree (.table t)
  | addView v => PutFits ps c.tree (.view v)
  | addRoutine r => PutFits ps c.tree (.routine r)
  | updateTable name t => ∀ rid ∈ findRecord c.tree (namedRecord catTable name),
      c.tree.SplitsFit ps (btCmp .table) (rowidToKey rid) (CatRecord.table t).encode
  | dropTable name => FirstNamed c.tree catTable name
  | dropView name => FirstNamed c.tree catView name
  | dropRoutine name => FirstNamed c.tree catRoutine name
  | tablespaceCreate name location _ => PutFits ps c.tree (.tablespace ⟨name, location⟩)
  | setComment kind (some target) (some body) =>
    PutFits ps (delRecords c.tree (findRecords c.tree (commentOn kind target)))
      (.comment ⟨kind, target, body⟩)
  | grant (some grantee) (some priv) kind object =>
    PutFits ps c.tree (.grant ⟨grantee, priv, kind, object⟩)
  | _ => True

instance (ps : Nat) (c : Catalog) : (op : CatOp) → Decidable (op.Sound ps c)
  | addTable t => inferInstanceAs (Decidable (PutFits ps c.tree (.table t)))
  | addView v => inferInstanceAs (Decidable (PutFits ps c.tree (.view v)))
  | addRoutine r => inferInstanceAs (Decidable (PutFits ps c.tree (.routine r)))
  | updateTable name _ => Option.decidableForallMem (findRecord c.tree (namedRecord catTable name))
  | dropTable name => inferInstanceAs (Decidable (FirstNamed c.tree catTable name))
  | dropView name => inferInstanceAs (Decidable (FirstNamed c.tree catView name))
  | dropRoutine name => inferInstanceAs (Decidable (FirstNamed c.tree catRoutine name))
  | tablespaceCreate name location _ =>
    inferInstanceAs (Decidable (PutFits ps c.tree (.tablespace ⟨name, location⟩)))
  | tablespaceDrop _ _ => .isTrue trivial
  | setComment _ (some _) (some _) => inferInstanceAs (Decidable (PutFits ps _ _))
  | setComment _ none _ => .isTrue trivial
  | setComment _ (some _) none => .isTrue trivial
  | grant (some _) (some _) _ _ => inferInstanceAs (Decidable (PutFits ps _ _))
  | grant none _ _ _ => .isTrue trivial
  | grant (some _) none _ _ => .isTrue trivial
  | revoke _ _ _ _ => .isTrue trivial

/-- **A step**: a sound operation that succeeds keeps the records and the memory together. -/
theorem exec_rep {ps : Nat} (hps : 512 ≤ ps) {c : Catalog} {recs : List (UInt64 × CatRecord)}
    (h : c.Rep ps recs) (op : CatOp) (hfits : ∀ r ∈ op.record, r.Fits) (hsound : op.Sound ps c)
    (hok : (op.exec ps c).1 = .ok) : ∃ recs', (op.exec ps c).2.Rep ps recs' := by
  cases op with
  | addTable t | addView v | addRoutine r => exact h.add hps (hfits _ rfl) hsound rfl
  | updateTable name t =>
    simp only [exec] at hok ⊢
    split at hok
    · cases hok
    · exact h.updateTable hps (hfits _ rfl) hsound (Prod.ext hok rfl)
  | dropTable name => exact ⟨_, h.dropNamed tableKind hsound⟩
  | dropView name => exact ⟨_, h.dropNamed viewKind hsound⟩
  | dropRoutine name => exact ⟨_, h.dropNamed routineKind hsound⟩
  | tablespaceCreate name location ifNotExists =>
    simp only [exec, Catalog.tablespaceCreate] at hok ⊢
    split
    · exact ⟨recs, h⟩
    · split
      · exact ⟨recs, h⟩
      · exact h.add hps (hfits _ rfl) hsound rfl
  | tablespaceDrop name ifExists =>
    by_cases hex : c.tablespaceExists name = true
    · exact ⟨_, (h.tablespaceDrop ifExists hex).2⟩
    · refine ⟨recs, ?_⟩
      simp only [exec, Catalog.tablespaceDrop, if_neg hex]
      exact h
  | setComment kind target body =>
    cases target with
    | none => cases hok
    | some target =>
      obtain ⟨recs', h'⟩ := h.delComments kind target
      cases body with
      | none => exact ⟨recs', h'⟩
      | some body => exact h'.add hps (hfits _ rfl) hsound rfl
  | grant grantee priv kind object =>
    cases grantee with
    | none => cases hok
    | some grantee =>
      cases priv with
      | none => cases hok
      | some priv =>
        by_cases hkind : kind = 0
        · simp [exec, aclGrant, hkind] at hok
        · have hexec : exec ps c (.grant (some grantee) (some priv) kind object)
              = Catalog.aclPersist ps
                { c with cache := c.cache.add (.grant ⟨grantee, priv, kind, object⟩) }
                ⟨grantee, priv, kind, object⟩ := by
            simp [exec, aclGrant, hkind, SchemaCache.add]
          rw [hexec]
          -- the entry is in memory before its record is written
          exact h.add hps (hfits _ rfl) hsound rfl
  | revoke grantee priv kind object => exact h.revoke grantee priv kind object

end CatOp

/-- The catalog after the operations. -/
def runCatalog (ps : Nat) : List CatOp → Catalog → Catalog
  | [], c => c
  | op :: ops, c => runCatalog ps ops (op.exec ps c).2

/-- Every operation succeeds and is sound, and no string or count of it overflows an `int`. -/
def CatalogOps (ps : Nat) : List CatOp → Catalog → Prop
  | [], _ => True
  | op :: ops, c => (op.exec ps c).1 = .ok ∧ op.Sound ps c ∧ (∀ r ∈ op.record, r.Fits) ∧
      CatalogOps ps ops (op.exec ps c).2

instance instDecidableCatalogOps (ps : Nat) :
    (ops : List CatOp) → (c : Catalog) → Decidable (CatalogOps ps ops c)
  | [], _ => .isTrue trivial
  | op :: ops, c =>
    have := instDecidableCatalogOps ps ops (op.exec ps c).2
    inferInstanceAs (Decidable ((op.exec ps c).1 = .ok ∧ op.Sound ps c ∧ (∀ r ∈ op.record, r.Fits) ∧ _))

theorem runCatalog_rep {ps : Nat} (hps : 512 ≤ ps) (ops : List CatOp) :
    ∀ {c : Catalog} {recs : List (UInt64 × CatRecord)}, c.Rep ps recs → CatalogOps ps ops c →
      ∃ recs', (runCatalog ps ops c).Rep ps recs' := by
  induction ops with
  | nil => intro c recs h _; exact ⟨recs, h⟩
  | cons op ops ih =>
    intro c recs h hops
    obtain ⟨hok, hsound, hfits, hrest⟩ := hops
    obtain ⟨recs', h'⟩ := op.exec_rep hps h hfits hsound hok
    exact ih h' hrest

/-- **The file has the catalog that is in memory**: after any sequence of successful operations on a
new catalog, each of them sound, loading the records gives the tables, views, routines, tablespaces
and grants that are in memory. -/
theorem catalogLoad_eq_cache {ps : Nat} (hps : 512 ≤ ps) (pgno : Nat) (ops : List CatOp)
    (hops : CatalogOps ps ops (Catalog.create ps pgno)) :
    catalogLoad (runCatalog ps ops (Catalog.create ps pgno)).tree
      = (runCatalog ps ops (Catalog.create ps pgno)).cache := by
  obtain ⟨recs, h⟩ := runCatalog_rep hps ops (rep_create hps pgno) hops
  exact h.load

/-- A table `t` and a view `v`, the table renamed and given a comment, two grants and a revocation,
and the view dropped. -/
def catalogDay : List CatOp :=
  [.addTable (.new "t".toUTF8.toList), .addView ⟨"v".toUTF8.toList, [], false, 0⟩,
    .updateTable "T".toUTF8.toList (.new "u".toUTF8.toList),
    .setComment 1 (some "u".toUTF8.toList) (some "old".toUTF8.toList),
    .setComment 1 (some "u".toUTF8.toList) (some "new".toUTF8.toList),
    .tablespaceCreate "s".toUTF8.toList none false,
    .grant (some "ann".toUTF8.toList) (some "select".toUTF8.toList) aclTable (some "u".toUTF8.toList),
    .grant (some "bob".toUTF8.toList) (some "ALL".toUTF8.toList) aclTable (some "u".toUTF8.toList),
    .revoke (some "ANN".toUTF8.toList) none 0 none, .dropView "V".toUTF8.toList]

theorem catalogLoad_eq_cache_day :
    catalogLoad (runCatalog 4096 catalogDay (Catalog.create 4096 2)).tree
      = (runCatalog 4096 catalogDay (Catalog.create 4096 2)).cache ∧
    (runCatalog 4096 catalogDay (Catalog.create 4096 2)).cache.tables = [.new "u".toUTF8.toList] :=
  ⟨catalogLoad_eq_cache (by decide) 2 catalogDay (by decide +kernel), by decide +kernel⟩

/-- A view, then a table of the same name, and the table dropped: the record of the view is gone, and
that of the table is there. -/
def oneName : List CatOp :=
  [.addView ⟨"x".toUTF8.toList, [], false, 0⟩, .addTable (.new "x".toUTF8.toList),
    .dropTable "x".toUTF8.toList]

theorem catalogLoad_ne_cache :
    let c := runCatalog 4096 oneName (Catalog.create 4096 2)
    c.cache.tables = [] ∧ c.cache.views.length = 1 ∧
    (catalogLoad c.tree).tables = [.new "x".toUTF8.toList] ∧ (catalogLoad c.tree).views = [] := by
  decide +kernel

end Tdb
