import TransactionDB.Catalog.Coherence
import TransactionDB.Sql.Ddl

/-!
# TransactionDB — grants in memory and in the catalog

`exec_grant` of `src/sql/tdb_exec_dml.inc` writes every privilege twice: to the list in memory, which merges
equal entries, and as a record to the catalog, which keeps them all. A REVOKE deletes from both, each with a
matcher of its own. The catalog is a list of records here, which a record is appended to, that is scanned in
order and that records are deleted from.

Whatever was granted and revoked, the list that `catalog_load` makes of the records is the list in memory
(`Rep.run`), so every check gives the same answer (`reload_check`).
-/

namespace Tdb.Ddl

open List

/-- The records of the catalog, and the list in memory. -/
structure GrantStore where
  records : List Bytes
  acl : List AclEntry
  deriving DecidableEq

namespace GrantStore

/-- `catalog_load`. -/
def load (records : List Bytes) : GrantStore := ⟨records, (records.foldl loadRecord .empty).acl⟩

variable (s : GrantStore) (grantee : Bytes) (kind : UInt8) (object : Bytes)

/-- One privilege of a GRANT: `tdb_acl_grant`, then `tdb_catalog_acl_persist`. -/
def grant (priv : Bytes) : Status × GrantStore :=
  match aclGrant s.acl (some grantee) (some priv) kind (some object) with
  | (.ok, acl) => (.ok, ⟨s.records ++ [CatRecord.encode (.grant ⟨grantee, priv, kind, some object⟩)], acl⟩)
  | (rc, _) => (rc, s)

/-- One privilege of a REVOKE: `tdb_acl_revoke`, then `tdb_catalog_acl_unpersist`. -/
def revoke (priv : Bytes) : Status × GrantStore :=
  (.ok, ⟨s.records.filter fun v => !grantMatch (some grantee) (some priv) kind (some object) v,
    aclRevoke s.acl (some grantee) (some priv) kind (some object)⟩)

/-- The privileges one after the other, up to the first failure. -/
def each (one : GrantStore → Bytes → Status × GrantStore) : List Bytes → GrantStore → Status × GrantStore
  | [], s => (.ok, s)
  | p :: ps, s =>
    match one s p with
    | (.ok, s) => each one ps s
    | (rc, s) => (rc, s)

/-- `exec_grant`. -/
def exec (g : Grant) : Status × GrantStore :=
  let (kind, object) := parseGrantObject g.object
  if object = [] then (.error, s)
  else
    let grantee := g.grantee.getD "PUBLIC".toUTF8.toList
    each (fun s p => if g.revoke then s.revoke grantee kind object p else s.grant grantee kind object p)
      (splitPrivs g.privs) s

/-- Statements one after the other, failed ones among them. -/
def run (gs : List Grant) (s : GrantStore) : GrantStore := gs.foldl (fun s g => (s.exec g).2) s

/-! ## The list is what the records make -/

/-- The records are those of `rs`, and the list in memory is the one that they make. -/
structure Rep (s : GrantStore) (rs : List CatRecord) : Prop where
  records : s.records = rs.map CatRecord.encode
  fits : ∀ r ∈ rs, r.Fits
  acl : s.acl = (cacheOf rs).acl

variable {s grantee kind object} {rs : List CatRecord}

theorem foldl_loadRecord (hfits : ∀ r ∈ rs, r.Fits) (c : SchemaCache) :
    (rs.map CatRecord.encode).foldl loadRecord c = rs.foldl SchemaCache.add c := by
  induction rs generalizing c with
  | nil => rfl
  | cons r rs ih =>
    rw [map_cons, foldl_cons, foldl_cons, loadRecord_encode c (hfits r mem_cons_self)]
    exact ih (forall_mem_cons.mp hfits).2 _

theorem rep_load (hfits : ∀ r ∈ rs, r.Fits) : Rep (load (rs.map CatRecord.encode)) rs where
  records := rfl
  fits := hfits
  acl := congrArg SchemaCache.acl (foldl_loadRecord hfits .empty)

theorem Rep.grant (h : s.Rep rs) {priv : Bytes}
    (hfits : (CatRecord.grant ⟨grantee, priv, kind, some object⟩).Fits) :
    ∃ rs', (s.grant grantee kind object priv).2.Rep rs' := by
  unfold GrantStore.grant
  split
  · next acl hacl =>
    refine ⟨rs ++ [.grant ⟨grantee, priv, kind, some object⟩], ⟨?_, ?_, ?_⟩⟩
    · rw [map_append, h.records]
      rfl
    · intro r hr
      rcases mem_append.mp hr with hr | hr
      · exact h.fits r hr
      · rw [mem_singleton.mp hr]
        exact hfits
    · rw [h.acl] at hacl
      rw [cacheOf, foldl_concat]
      exact (congrArg Prod.snd hacl).symm
  · exact ⟨rs, h⟩

theorem Rep.revoke (h : s.Rep rs) (priv : Bytes) : ∃ rs', (s.revoke grantee kind object priv).2.Rep rs' := by
  refine ⟨rs.filter fun r => !grantMatch (some grantee) (some priv) kind (some object) r.encode, ⟨?_, ?_, ?_⟩⟩
  · rw [GrantStore.revoke, h.records, filter_map]
    rfl
  · exact fun r hr => h.fits r (mem_of_mem_filter hr)
  · rw [cacheOf_revoke h.fits, GrantStore.revoke, h.acl]

theorem Rep.each {one : GrantStore → Bytes → Status × GrantStore} {ps : List Bytes}
    (hone : ∀ p ∈ ps, ∀ {s rs}, Rep s rs → ∃ rs', (one s p).2.Rep rs') (h : s.Rep rs) :
    ∃ rs', (GrantStore.each one ps s).2.Rep rs' := by
  induction ps generalizing s rs with
  | nil => exact ⟨rs, h⟩
  | cons p ps ih =>
    obtain ⟨rs', h'⟩ := hone p mem_cons_self h
    rw [GrantStore.each]
    split
    · next s' hs =>
      rw [hs] at h'
      exact ih (forall_mem_cons.mp hone).2 h'
    · next s' hrc hs =>
      rw [hs] at h'
      exact ⟨rs', h'⟩

end GrantStore

/-- The words of the statement have lengths that are `int`s. -/
def Grant.Fits (g : Grant) : Prop :=
  (∀ p ∈ splitPrivs g.privs, StrFits (some p)) ∧ StrFits (some (parseGrantObject g.object).2) ∧ StrFits g.grantee

instance (g : Grant) : Decidable g.Fits := inferInstanceAs (Decidable (_ ∧ _))

namespace GrantStore

variable {s : GrantStore} {rs : List CatRecord}

theorem Rep.exec (h : s.Rep rs) {g : Grant} (hg : g.Fits) : ∃ rs', (s.exec g).2.Rep rs' := by
  obtain ⟨hprivs, hobject, hgrantee⟩ := hg
  have huser : StrFits (some (g.grantee.getD "PUBLIC".toUTF8.toList)) := by
    cases hu : g.grantee with
    | none => decide +kernel
    | some u => rwa [hu] at hgrantee
  obtain ⟨⟨kind, object⟩, hparse⟩ : ∃ ko, parseGrantObject g.object = ko := ⟨_, rfl⟩
  rw [hparse] at hobject
  simp only [GrantStore.exec, hparse]
  split
  · exact ⟨rs, h⟩
  · refine Rep.each (fun p hp s rs h => ?_) h
    cases g.revoke with
    | true => exact h.revoke p
    | false => exact h.grant ⟨huser, hprivs p hp, hobject⟩

/-- The list in memory is the list that the records make, after any statements. -/
theorem Rep.run {gs : List Grant} (h : s.Rep rs) (hgs : ∀ g ∈ gs, g.Fits) : ∃ rs', (GrantStore.run gs s).Rep rs' := by
  induction gs generalizing s rs with
  | nil => exact ⟨rs, h⟩
  | cons g gs ih =>
    obtain ⟨rs', h'⟩ := h.exec (hgs g mem_cons_self)
    exact ih h' (forall_mem_cons.mp hgs).2

/-- The list loaded from the records that are left answers every check as the one in memory does. -/
theorem reload_check (rs : List CatRecord) (hrs : ∀ r ∈ rs, r.Fits) (gs : List Grant) (hgs : ∀ g ∈ gs, g.Fits)
    (user : Option Bytes) (priv : Bytes) (kind : UInt8) (object : Bytes) :
    aclCheck (load (GrantStore.run gs (load (rs.map CatRecord.encode))).records).acl user priv kind object =
      aclCheck (GrantStore.run gs (load (rs.map CatRecord.encode))).acl user priv kind object := by
  obtain ⟨rs', h⟩ := (rep_load hrs).run hgs
  rw [h.records, (rep_load h.fits).acl, ← h.acl]

/-- The same privilege granted in two cases, and then one of several revoked. -/
def sampleGrants : List Grant :=
  [⟨false, "select, insert".toUTF8.toList, "TABLE t".toUTF8.toList, some "u".toUTF8.toList⟩,
    ⟨false, "SELECT".toUTF8.toList, "T".toUTF8.toList, none⟩,
    ⟨true, "all".toUTF8.toList, "t".toUTF8.toList, some "U".toUTF8.toList⟩]

theorem reload_check_sample : (∀ g ∈ sampleGrants, g.Fits) ∧
    aclCheck (load (GrantStore.run sampleGrants (load [])).records).acl (some "u".toUTF8.toList)
        "SELECT".toUTF8.toList aclTable "t".toUTF8.toList =
      aclCheck (GrantStore.run sampleGrants (load [])).acl (some "u".toUTF8.toList)
        "SELECT".toUTF8.toList aclTable "t".toUTF8.toList :=
  ⟨by decide +kernel, reload_check [] (by simp) sampleGrants (by decide +kernel) _ _ _ _⟩

end GrantStore

end Tdb.Ddl
