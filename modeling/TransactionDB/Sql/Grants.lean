import TransactionDB.Sql.DdlTxn

/-!
# TransactionDB — what GRANT and REVOKE leave of the privileges

`exec_grant` of `src/sql/tdb_exec_dml.inc` against the answers of `tdb_acl_check`. A check and a
revocation read the wildcards ALL, PUBLIC and the empty name in opposite directions: a check reads
those of an entry, a revocation those of the statement. So a revocation of one privilege leaves an
entry for ALL, and one from a user leaves an entry for the empty name, which is everybody
(`revoke_effective_iff`).

Grants are kept by name. Nothing but GRANT and REVOKE changes the list (`exec_acl`), so a table that
is created or renamed finds the grants that are there for its name (`grants_follow_iff`).
-/

namespace Tdb

open List

/-- The entry gives the user the privilege on the object. -/
def AclEntry.gives (e : AclEntry) (user priv : Bytes) (kind : UInt8) (object : Bytes) : Bool :=
  matchGrantee (some e.grantee) (some user) && matchPriv (some e.priv) (some priv) &&
    matchKind e.kind kind && matchObject e.object (some object)

theorem aclCheck_some (acl : List AclEntry) (user priv : Bytes) (kind : UInt8) (object : Bytes) :
    aclCheck acl (some user) priv kind object = acl.any fun e => e.gives user priv kind object := rfl

def publicName : Bytes := "PUBLIC".toUTF8.toList

def allName : Bytes := "ALL".toUTF8.toList

/-! ## Matching -/

section Match

variable {a b w : Bytes}

theorem sameName_comm (a b : Bytes) : sameName a b = sameName b a := by
  rw [Bool.eq_iff_iff, sameName_iff, sameName_iff, eq_comm]

theorem sameName_trans {c : Bytes} (hab : sameName a b = true) (hbc : sameName b c = true) :
    sameName a c = true :=
  sameName_iff.mpr ((sameName_iff.mp hab).trans (sameName_iff.mp hbc))

theorem sameName_nil_iff : sameName a [] = true ↔ a = [] := by
  rw [sameName_iff]
  simp

theorem matchText_iff {wild : Option Bytes} : matchText wild (some w) (some a) = true ↔
    w = [] ∨ (∃ x, wild = some x ∧ sameName w x = true) ∨ sameName w a = true := by
  cases w with
  | nil => simp [matchText]
  | cons c w => cases wild <;> simp [matchText]

theorem matchGrantee_iff : matchGrantee (some w) (some a) = true ↔
    w = [] ∨ sameName w publicName = true ∨ sameName w a = true := by
  rw [matchGrantee, matchText_iff]
  simp [publicName]

theorem matchPriv_iff : matchPriv (some w) (some a) = true ↔
    w = [] ∨ sameName w allName = true ∨ sameName w a = true := by
  rw [matchPriv, matchText_iff]
  simp [allName]

/-- A named object matches itself only. -/
theorem matchObject_some (hw : w ≠ []) (object : Option Bytes) :
    matchObject (some w) object = true ↔ ∃ o, object = some o ∧ sameName w o = true := by
  cases w with
  | nil => exact absurd rfl hw
  | cons c w => cases object <;> simp [matchObject, matchText]

end Match

/-! ## One revocation -/

/-- The entry is for this object and no other. -/
structure AclEntry.Plain (e : AclEntry) : Prop where
  kind : e.kind ≠ 0
  priv : e.priv ≠ []
  object : ∃ o, e.object = some o ∧ o ≠ []

/-- What REVOKE is for: the user has the privilege no more, unless PUBLIC has it, and the answers for
other users and other objects are what they were. -/
structure RevokeEffective (old new : List AclEntry) (user priv : Bytes) (kind : UInt8) (object : Bytes) :
    Prop where
  gone : aclCheck new (some user) priv kind object = true →
    ∃ e ∈ new, sameName e.grantee publicName = true ∧ e.gives user priv kind object = true
  others : ∀ other, sameName other user = false → ∀ p k o,
    aclCheck new (some other) p k o = aclCheck old (some other) p k o
  elsewhere : ∀ k o, ¬ (k = kind ∧ sameName o object = true) → ∀ other p,
    aclCheck new (some other) p k o = aclCheck old (some other) p k o

/-- An entry that gives the user the privilege and is not revoked: one for the empty name, or one of
the user for ALL. -/
def Lingers (user priv : Bytes) (kind : UInt8) (object : Bytes) (e : AclEntry) : Prop :=
  e.kind = kind ∧ e.object.any (sameName · object) = true ∧
    (e.grantee = [] ∧ (sameName e.priv allName = true ∨ sameName e.priv priv = true) ∨
      sameName e.grantee user = true ∧ sameName e.priv allName = true ∧ sameName priv allName = false)

section Revoke

variable {acl : List AclEntry} {user priv object : Bytes} {kind : UInt8}

/-- The entries that a revocation from a named user of a named object removes. -/
theorem revokes_iff (hu : user ≠ []) (hpub : sameName user publicName = false) (hkind : kind ≠ 0)
    (hobj : object ≠ []) (hpriv : priv ≠ []) (e : AclEntry) :
    revokes (some user) (some priv) kind (some object) e = true ↔
      sameName user e.grantee = true ∧ (sameName priv allName = true ∨ sameName priv e.priv = true) ∧
        kind = e.kind ∧ ∃ o, e.object = some o ∧ sameName object o = true := by
  simp only [revokes, Bool.and_eq_true, matchGrantee_iff, matchPriv_iff, matchObject_some hobj]
  simp [hu, hpub, hpriv, matchKind, hkind, and_assoc]

/-- Removing entries that do not give the answer leaves it as it is. -/
theorem aclCheck_filter {keep : AclEntry → Bool} {p o : Bytes} {k : UInt8}
    (h : ∀ e ∈ acl, keep e = false → e.gives user p k o = false) :
    aclCheck (acl.filter keep) (some user) p k o = aclCheck acl (some user) p k o := by
  rw [aclCheck_some, aclCheck_some, any_filter, Bool.eq_iff_iff, any_eq_true, any_eq_true]
  refine exists_congr fun e => and_congr_right fun he => ?_
  cases hk : keep e with
  | true => simp
  | false => simp [h e he hk]

theorem aclRevoke_others (hu : user ≠ []) (hpub : sameName user publicName = false) (hkind : kind ≠ 0)
    (hobj : object ≠ []) (hpriv : priv ≠ []) {other : Bytes} (hne : sameName other user = false)
    (p : Bytes) (k : UInt8) (o : Bytes) :
    aclCheck (aclRevoke acl (some user) (some priv) kind (some object)) (some other) p k o =
      aclCheck acl (some other) p k o := by
  refine aclCheck_filter fun e _ hgone => ?_
  have hrev := (revokes_iff hu hpub hkind hobj hpriv e).mp (by simpa using hgone)
  -- the entry is the user's, so it speaks for nobody else
  rw [Bool.eq_false_iff]
  intro hgives
  simp only [AclEntry.gives, Bool.and_eq_true] at hgives
  rcases matchGrantee_iff.mp hgives.1.1.1 with hnil | hwild | hsame
  · rw [hnil] at hrev
    exact hu (sameName_nil_iff.mp hrev.1)
  · rw [sameName_trans hrev.1 hwild] at hpub
    exact absurd hpub (by decide)
  · rw [sameName_comm, sameName_trans hrev.1 hsame] at hne
    exact absurd hne (by decide)

/-- A revocation for a named object removes only entries for it. -/
theorem revokes_object {grantee : Option Bytes} {p : Option Bytes} {e : AclEntry} (hkind : kind ≠ 0)
    (hobj : object ≠ []) (h : revokes grantee p kind (some object) e = true) :
    kind = e.kind ∧ ∃ o, e.object = some o ∧ sameName object o = true := by
  simp only [revokes, Bool.and_eq_true, matchObject_some hobj, matchKind, Bool.or_eq_true,
    decide_eq_true_eq] at h
  exact ⟨h.1.2.resolve_left hkind, h.2⟩

/-- An entry for a named object speaks for no other. -/
theorem AclEntry.gives_object {e : AclEntry} (hkind : e.kind ≠ 0) (hobj : object ≠ [])
    (he : ∃ o, e.object = some o ∧ sameName object o = true) {k : UInt8} {o p : Bytes}
    (h : e.gives user p k o = true) : k = e.kind ∧ sameName o object = true := by
  obtain ⟨o', ho', hsame⟩ := he
  have hne : o' ≠ [] := fun hnil => hobj (sameName_nil_iff.mp (hnil ▸ hsame))
  simp only [AclEntry.gives, Bool.and_eq_true, ho', matchObject_some hne, matchKind, Bool.or_eq_true,
    decide_eq_true_eq] at h
  obtain ⟨o'', heq, hsame'⟩ := h.2
  cases heq
  exact ⟨(h.1.2.resolve_left hkind).symm, by rw [sameName_comm]; exact sameName_trans hsame hsame'⟩

theorem aclRevoke_elsewhere {grantee p : Option Bytes} (hkind : kind ≠ 0) (hobj : object ≠ []) {k : UInt8}
    {o : Bytes} (hne : ¬ (k = kind ∧ sameName o object = true)) (other q : Bytes) :
    aclCheck (aclRevoke acl grantee p kind (some object)) (some other) q k o =
      aclCheck acl (some other) q k o := by
  refine aclCheck_filter fun e _ hgone => ?_
  obtain ⟨rfl, he⟩ := revokes_object hkind hobj (by simpa using hgone)
  rw [Bool.eq_false_iff]
  exact fun hgives => hne (AclEntry.gives_object hkind hobj he hgives)

section

variable (hu : user ≠ []) (hpub : sameName user publicName = false) (hkind : kind ≠ 0)
  (hobj : object ≠ []) (hpriv : priv ≠ [])

include hu hpub hkind hobj hpriv

/-- An entry for one object that gives the privilege and stays is for PUBLIC, or lingers. -/
theorem lingers_iff {e : AclEntry} (he : e.Plain) (hne : sameName e.grantee publicName = false) :
    (e.gives user priv kind object = true ∧
      revokes (some user) (some priv) kind (some object) e = false) ↔
      Lingers user priv kind object e := by
  obtain ⟨o, ho, hone⟩ := he.object
  rw [Bool.eq_false_iff, Ne, revokes_iff hu hpub hkind hobj hpriv]
  simp only [AclEntry.gives, Bool.and_eq_true, matchGrantee_iff, matchPriv_iff, ho, matchObject_some hone,
    Lingers, hne, he.priv, matchKind, he.kind, Bool.or_eq_true, decide_eq_true_eq, Option.any_some,
    Option.some.injEq, exists_eq_left', Bool.false_eq_true, false_or, decide_false]
  rw [sameName_comm user e.grantee, sameName_comm priv e.priv, sameName_comm object o]
  by_cases hnil : e.grantee = []
  · have hnot : sameName e.grantee user = false := by
      rw [hnil, sameName_comm, Bool.eq_false_iff]
      exact fun h => hu (sameName_nil_iff.mp h)
    simp [hnil ▸ hnot, hnil]
    tauto
  · cases hall : sameName priv allName with
    | true =>
      simp [hnil]
      tauto
    | false =>
      -- the privilege is not ALL, so an entry for ALL is not one for the privilege
      have hnot : sameName e.priv allName = true → sameName e.priv priv = false := by
        intro hwild
        rw [Bool.eq_false_iff]
        intro hsame
        rw [sameName_comm] at hsame
        rw [sameName_trans hsame hwild] at hall
        exact absurd hall (by decide)
      cases hwild : sameName e.priv allName with
      | true => simp [hnil, hnot hwild, and_comm, and_left_comm]
      | false =>
        simp [hnil]
        tauto

/-- **When a revocation is effective.** -/
theorem revokeEffective_iff (hplain : ∀ e ∈ acl, e.Plain) :
    RevokeEffective acl (aclRevoke acl (some user) (some priv) kind (some object)) user priv kind object ↔
      (∃ e ∈ acl, sameName e.grantee publicName = true ∧ e.gives user priv kind object = true) ∨
        ∀ e ∈ acl, ¬ Lingers user priv kind object e := by
  have hpublic : ∀ e ∈ acl, sameName e.grantee publicName = true →
      e ∈ aclRevoke acl (some user) (some priv) kind (some object) := by
    intro e he hname
    refine mem_filter.mpr ⟨he, ?_⟩
    rw [Bool.not_eq_true', Bool.eq_false_iff]
    intro hrev
    have hsame := ((revokes_iff hu hpub hkind hobj hpriv e).mp hrev).1
    rw [sameName_trans hsame hname] at hpub
    exact absurd hpub (by decide)
  constructor
  · intro h
    by_cases hpe : ∃ e ∈ acl, sameName e.grantee publicName = true ∧ e.gives user priv kind object = true
    · exact .inl hpe
    · refine .inr fun e he hling => hpe ?_
      cases hname : sameName e.grantee publicName with
      | true =>
        -- an entry for PUBLIC does not linger
        rcases hling.2.2 with ⟨hnil, -⟩ | ⟨hsame, -⟩
        · rw [hnil] at hname
          exact absurd hname (by decide +kernel)
        · rw [sameName_comm] at hsame
          rw [sameName_trans hsame hname] at hpub
          exact absurd hpub (by decide)
      | false =>
        obtain ⟨hgives, hstays⟩ := (lingers_iff hu hpub hkind hobj hpriv (hplain e he) hname).mpr hling
        have hcheck : aclCheck (aclRevoke acl (some user) (some priv) kind (some object))
            (some user) priv kind object = true := by
          rw [aclCheck_some, any_eq_true]
          exact ⟨e, mem_filter.mpr ⟨he, by rw [hstays]; rfl⟩, hgives⟩
        obtain ⟨e', he', hrest⟩ := h.gone hcheck
        exact ⟨e', mem_of_mem_filter he', hrest⟩
  · intro hcond
    refine ⟨fun hcheck => ?_, fun other hne p k o => aclRevoke_others hu hpub hkind hobj hpriv hne p k o,
      fun k o hne other p => aclRevoke_elsewhere hkind hobj hne other p⟩
    rcases hcond with ⟨e, he, hname, hgives⟩ | hnone
    · exact ⟨e, hpublic e he hname, hname, hgives⟩
    · rw [aclCheck_some, any_eq_true] at hcheck
      obtain ⟨e, he, hgives⟩ := hcheck
      obtain ⟨hmem, hstays⟩ := mem_filter.mp he
      refine ⟨e, he, ?_, hgives⟩
      by_contra hname
      exact hnone e hmem ((lingers_iff hu hpub hkind hobj hpriv (hplain e hmem)
        (by simpa using hname)).mp ⟨hgives, by simpa using hstays⟩)

end

end Revoke

/-! ## Statements -/

namespace Ddl

open Exec

variable {σ : Type} {E : DdlEngine σ} {d : State σ}

/-- The grants in memory. -/
def State.acl (d : State σ) : List AclEntry := d.cat.cache.acl

def runDdl (E : DdlEngine σ) (d : State σ) (sts : List (DdlStmt σ)) : State σ :=
  sts.foldl (fun d st => (st.exec E d).db) d

/-- The user that GRANT or REVOKE names. -/
def Grant.user (g : Grant) : Bytes := g.grantee.getD publicName

/-- The entries after some privileges of a GRANT. -/
theorem mem_eachPriv_grant {grantee object : Bytes} {kind : UInt8} (hkind : kind ≠ 0) (ps : List Bytes) :
    ∀ {d : State σ} {e : AclEntry},
      e ∈ (eachPriv (fun d p => grantOne E d grantee kind object p) ps d).2.acl →
      e ∈ d.acl ∨ ∃ p ∈ ps, e = ⟨grantee, p.map upperAscii, kind, some object⟩ := by
  induction ps with
  | nil => exact fun he => .inl he
  | cons p ps ih =>
    intro d e he
    have hone : (grantOne E d grantee kind object p).2.acl =
        aclAdd d.acl ⟨grantee, p.map upperAscii, kind, some object⟩ :=
      congrArg (fun m => m.1.acl) (grantOne_mem d hkind p)
    have hadd : e ∈ (grantOne E d grantee kind object p).2.acl →
        e ∈ d.acl ∨ ∃ q ∈ p :: ps, e = ⟨grantee, q.map upperAscii, kind, some object⟩ := by
      rw [hone, aclAdd]
      intro he
      split at he
      · exact .inl he
      · rcases mem_cons.mp he with rfl | he
        · exact .inr ⟨p, mem_cons_self, rfl⟩
        · exact .inl he
    rw [eachPriv] at he
    split at he
    · rename_i d' heq
      rcases ih he with hold | ⟨q, hq, rfl⟩
      · exact hadd (by rw [heq]; exact hold)
      · exact .inr ⟨q, mem_cons_of_mem p hq, rfl⟩
    · rename_i heq
      exact hadd (by rw [heq]; exact he)

theorem eachPriv_revoke_sublist (grantee object : Bytes) (kind : UInt8) (ps : List Bytes) (d : State σ) :
    (eachPriv (fun d p => revokeOne E d grantee kind object p) ps d).2.acl.Sublist d.acl :=
  eachPriv_moves (aclStep_revoke (E := E)) ps d

/-- The entries after GRANT or REVOKE: those that were there, and those that the statement names. -/
theorem mem_execGrant {g : Grant} {e : AclEntry} (he : e ∈ (execGrant E d g).db.acl) :
    e ∈ d.acl ∨ g.revoke = false ∧ (parseGrantObject g.object).2 ≠ [] ∧ ∃ p ∈ splitPrivs g.privs,
      e = ⟨g.user, p.map upperAscii, (parseGrantObject g.object).1, some (parseGrantObject g.object).2⟩ := by
  have hkind := parseGrantObject_kind g.object
  simp only [execGrant] at he
  split at he
  · exact .inl he
  · rename_i hobj
    cases hrev : g.revoke with
    | true =>
      simp only [hrev, if_true] at he
      exact .inl ((eachPriv_revoke_sublist _ _ _ _ d).subset he)
    | false =>
      simp only [hrev, Bool.false_eq_true, if_false] at he
      rcases mem_eachPriv_grant hkind _ he with hold | ⟨p, hp, rfl⟩
      · exact .inl hold
      · exact .inr ⟨rfl, hobj, p, hp, rfl⟩

/-- The words of a statement are not empty. -/
theorem splitPrivs_ne_nil {src p : Bytes} (hp : p ∈ splitPrivs src) : p ≠ [] := by
  simp only [splitPrivs, mem_map, mem_filter] at hp
  obtain ⟨w, ⟨-, hw⟩, rfl⟩ := hp
  simpa using hw

/-- The grants that statements make are for one object each. -/
theorem plain_runGrants (gs : List Grant) : ∀ {d : State σ}, (∀ e ∈ d.acl, e.Plain) →
    ∀ e ∈ (runDdl E d (gs.map .grant)).acl, e.Plain := by
  induction gs with
  | nil => exact fun h => h
  | cons g gs ih =>
    intro d h
    refine ih fun e he => ?_
    rcases mem_execGrant he with hold | ⟨-, hobj, p, hp, rfl⟩
    · exact h e hold
    · exact ⟨parseGrantObject_kind g.object, by simpa using splitPrivs_ne_nil hp, _, rfl, hobj⟩

/-- REVOKE of one privilege. -/
theorem execGrant_revoke {g : Grant} {priv : Bytes} (hrev : g.revoke = true)
    (hpriv : splitPrivs g.privs = [priv]) (hobj : (parseGrantObject g.object).2 ≠ []) :
    (execGrant E d g).db.acl = aclRevoke d.acl (some g.user) (some priv) (parseGrantObject g.object).1
      (some (parseGrantObject g.object).2) := by
  have hone : (revokeOne E d g.user (parseGrantObject g.object).1 (parseGrantObject g.object).2 priv).2.acl =
      aclRevoke d.acl (some g.user) (some priv) (parseGrantObject g.object).1
        (some (parseGrantObject g.object).2) :=
    congrArg (fun m => m.1.acl) (revokeOne_mem d g.user _ _ priv)
  rw [← hone]
  simp only [execGrant, if_neg hobj, hrev, if_true, hpriv, eachPriv, Grant.user, publicName]
  split
  · rename_i heq
    rw [heq]
    rfl
  · rename_i heq
    rw [heq]
    rfl

/-- **When REVOKE of a privilege from a user is effective**, after every sequence of GRANT and
REVOKE: PUBLIC has the privilege, or no entry lingers. -/
theorem revoke_effective_iff (E : DdlEngine σ) (d : State σ) (hd : d.acl = []) (gs : List Grant) (g : Grant)
    (priv : Bytes) (hrev : g.revoke = true) (hpriv : splitPrivs g.privs = [priv])
    (hobj : (parseGrantObject g.object).2 ≠ []) (huser : g.user ≠ [])
    (hpub : sameName g.user publicName = false) :
    let old := runDdl E d (gs.map .grant)
    let (kind, object) := parseGrantObject g.object
    RevokeEffective old.acl (execGrant E old g).db.acl g.user priv kind object ↔
      (∃ e ∈ old.acl, sameName e.grantee publicName = true ∧ e.gives g.user priv kind object = true) ∨
        ∀ e ∈ old.acl, ¬ Lingers g.user priv kind object e := by
  intro old
  have hplain : ∀ e ∈ old.acl, e.Plain := plain_runGrants gs (by simp [hd])
  have hp : priv ≠ [] := splitPrivs_ne_nil (by rw [hpriv]; exact mem_singleton_self priv)
  dsimp only
  rw [execGrant_revoke hrev hpriv hobj]
  exact revokeEffective_iff huser hpub (parseGrantObject_kind g.object) hobj hp hplain

/-- A statement from its words. -/
def grantWords (revoke : Bool) (privs object user : String) : Grant :=
  ⟨revoke, privs.toUTF8.toList, object.toUTF8.toList, some user.toUTF8.toList⟩

/-- A database without objects. -/
def emptyState : State Unit := ⟨Catalog.create 4096 2, [], ()⟩

/-- `GRANT SELECT, INSERT ON t TO u`, `REVOKE SELECT ON t FROM u`. -/
theorem revoke_effective_select :
    let d := runDdl (idleEngine Unit) emptyState [.grant (grantWords false "SELECT, INSERT" "t" "u")]
    RevokeEffective d.acl (execGrant (idleEngine Unit) d (grantWords true "select" "t" "u")).db.acl
      "u".toUTF8.toList "SELECT".toUTF8.toList aclTable "t".toUTF8.toList := by
  have hobj : parseGrantObject (grantWords true "select" "t" "u").object = (aclTable, "t".toUTF8.toList) := by
    decide +kernel
  have heff := revoke_effective_iff (idleEngine Unit) emptyState rfl [grantWords false "SELECT, INSERT" "t" "u"]
    (grantWords true "select" "t" "u") "SELECT".toUTF8.toList rfl (by decide +kernel)
    (by rw [hobj]; decide +kernel) (by decide +kernel) (by decide +kernel)
  simp only [hobj] at heff
  refine heff.mpr (.inr fun e he hling => ?_)
  have hall : ∀ e ∈ (runDdl (idleEngine Unit) emptyState
      [.grant (grantWords false "SELECT, INSERT" "t" "u")]).acl,
      e.grantee ≠ [] ∧ sameName e.priv allName = false := by decide +kernel
  rcases hling.2.2 with ⟨hnil, -⟩ | ⟨-, hwild, -⟩
  · exact (hall e he).1 hnil
  · exact absurd hwild (by rw [(hall e he).2]; decide)

/-- **`GRANT ALL ON t TO u`, `REVOKE SELECT ON t FROM u`.** The user still has SELECT. -/
theorem revoke_leaves_all :
    let d := runDdl (idleEngine Unit) emptyState [.grant (grantWords false "ALL" "t" "u"),
      .grant (grantWords true "SELECT" "t" "u")]
    aclCheck d.acl (some "u".toUTF8.toList) "SELECT".toUTF8.toList aclTable "t".toUTF8.toList = true ∧
      ∀ e ∈ d.acl, sameName e.grantee publicName = false := by
  decide +kernel

/-! ## Other statements -/

section Others

theorem catalog_acl {op : Catalog → Status × Catalog} (hop : ∀ c, (op c).2.cache.acl = c.cache.acl) :
    (d.catalog E op).2.acl = d.acl := by
  unfold State.catalog
  split
  · exact hop d.cat
  · rfl

theorem forget_acl {drop : Catalog → Catalog} (hdrop : (drop d.cat).cache.acl = d.cat.cache.acl) :
    (d.forget E drop).acl = d.acl := by
  have hmem := congrArg (fun m => m.1.acl) (forget_mem (E := E) (d := d) drop)
  exact hmem.trans hdrop

theorem updateTableAs_acl (name : Bytes) (t : TableDef) : (d.updateTableAs E name t).db.acl = d.acl :=
  congrArg (fun m => m.1.acl) (updateTableAs_mem name t)

/-- A record of an object changes no grant. -/
theorem add_acl {ps : Nat} {r : CatRecord} {f : SchemaCache → SchemaCache} (hf : ∀ m, (f m).acl = m.acl)
    (c : Catalog) : (c.add ps r f).2.cache.acl = c.cache.acl := by
  unfold Catalog.add
  split
  · exact hf c.cache
  · rfl

theorem addRoutine_acl (ps : Nat) (r : Routine) (c : Catalog) :
    (c.addRoutine ps r).2.cache.acl = c.cache.acl :=
  add_acl (f := fun m => { m with routines := m.routines ++ [r] }) (fun _ => rfl) c

theorem addView_acl (ps : Nat) (v : ViewDef) (c : Catalog) : (c.addView ps v).2.cache.acl = c.cache.acl :=
  add_acl (f := fun m => { m with views := m.views ++ [v] }) (fun _ => rfl) c

theorem makeTable_acl (t : TableDef) : (d.makeTable E t).2.2.acl = d.acl := by
  rcases makeTable_mem (E := E) (d := d) t with ⟨-, hmem⟩ | ⟨-, hmem⟩
  · exact congrArg (fun m => m.1.acl) hmem
  · exact congrArg (fun m => m.1.acl) hmem

theorem makeChildren_acl (t : TableDef) (ks : List Nat) :
    ∀ d : State σ, (makeChildren E t ks d).2.acl = d.acl := by
  induction ks with
  | nil => exact fun _ => rfl
  | cons k ks ih =>
    intro d
    have hmake := makeTable_acl (E := E) (d := d) (childTable t (childName t.name k))
    rw [makeChildren]
    split
    · exact ih d
    · split
      · rename_i heq
        rw [heq] at hmake
        exact (ih _).trans hmake
      · rename_i heq
        rw [heq] at hmake
        exact hmake

/-- Whatever follows when a table is made. -/
theorem makeTable_rest_acl (t : TableDef) {rest : TableDef → State σ → Result σ}
    (hrest : ∀ u d', (rest u d').db.acl = d'.acl) :
    (match d.makeTable E t with
      | (.ok, u, d') => rest u d'
      | (rc, _, d') => d'.done rc).db.acl = d.acl := by
  have hacl := makeTable_acl (E := E) (d := d) t
  split
  · rename_i heq
    rw [heq] at hacl
    exact (hrest _ _).trans hacl
  · rename_i heq
    rw [heq] at hacl
    exact hacl

theorem execCreateTable_acl (ct : CreateTable σ) : (execCreateTable E d ct).db.acl = d.acl := by
  have hrows : ∀ (t : TableDef) (rows : List Bytes) (d' : State σ),
      (insertRows E t rows d').2.acl = d'.acl :=
    fun t rows d' => congrArg (fun m => m.1.acl) (insertRows_mem t rows d')
  unfold execCreateTable
  split
  · split <;> rfl
  · split
    · split
      · rfl
      · split
        · rfl
        · exact makeTable_rest_acl _ fun u d' => hrows u _ d'
    · split
      · rfl
      · refine makeTable_rest_acl _ fun u d' => ?_
        split
        · exact makeChildren_acl u _ d'
        · rfl

theorem execCreateIndex_acl (ci : CreateIndex) : (execCreateIndex E d ci).db.acl = d.acl := by
  simp only [execCreateIndex]
  repeat' split
  all_goals first
    | rfl
    | exact (updateTableAs_acl _ _).trans rfl

theorem execDrop_acl (s : Drop) : (execDrop E d s).db.acl = d.acl := by
  have hspace : ∀ c : Catalog, (c.tablespaceDrop s.name s.ifExists).2.cache.acl = c.cache.acl := by
    intro c
    unfold Catalog.tablespaceDrop
    split <;> rfl
  have hmissing : ∀ (ifExists : Bool) (msg : DdlMsg), (d.missing ifExists msg).db.acl = d.acl :=
    fun ifExists msg => congrArg (fun m => m.1.acl) (missing_mem ifExists msg)
  unfold execDrop
  split
  · split
    · exact hmissing _ _
    · split
      · exact forget_acl rfl
      · rfl
  · split
    · exact hmissing _ _
    · split
      · exact hmissing _ _
      · split
        · exact updateTableAs_acl _ _
        · rfl
  · split
    · exact hmissing _ _
    · exact forget_acl rfl
  · split
    · rfl
    · split
      · rfl
      · split
        · exact catalog_acl hspace
        · rfl

theorem execCreateRoutine_acl (cr : CreateRoutine) : (execCreateRoutine E d cr).db.acl = d.acl := by
  have hold : (if (d.cat.findRoutine cr.name).isSome then
      d.forget E fun c => c.dropRoutine cr.name else d).acl = d.acl := by
    split
    · exact forget_acl rfl
    · rfl
  simp only [execCreateRoutine]
  generalize (if (d.cat.findRoutine cr.name).isSome then
    d.forget E fun c => c.dropRoutine cr.name else d) = d' at hold ⊢
  split
  · rfl
  · split
    · split
      · exact hold
      · exact hold
    · split
      · exact hold
      · exact (catalog_acl (addRoutine_acl _ _)).trans hold

theorem execAlter_acl (table : Bytes) (a : Alter) : (execAlter E d table a).db.acl = d.acl := by
  simp only [execAlter]
  repeat' split
  all_goals first
    | rfl
    | exact (updateTableAs_acl _ _).trans rfl

end Others

/-- **Nothing but GRANT and REVOKE changes the grants.** -/
theorem exec_acl (st : DdlStmt σ) (hst : ∀ g, st ≠ .grant g) : (st.exec E d).db.acl = d.acl := by
  cases st with
  | createTable ct => exact execCreateTable_acl ct
  | createIndex ci => exact execCreateIndex_acl ci
  | drop s => exact execDrop_acl s
  | createView name selectSql materialized ifNotExists =>
    simp only [DdlStmt.exec, execCreateView]
    split
    · split <;> rfl
    · exact catalog_acl (addView_acl _ _)
  | createRoutine cr => exact execCreateRoutine_acl cr
  | alter table a => exact execAlter_acl table a
  | createTablespace name location ifNotExists =>
    have hcreate : ∀ c : Catalog,
        (c.tablespaceCreate E.pageSize name location ifNotExists).2.cache.acl = c.cache.acl := by
      intro c
      unfold Catalog.tablespaceCreate
      split
      · rfl
      · split
        · rfl
        · exact add_acl (f := fun m => { m with tspaces := m.tspaces ++ [⟨name, location⟩] }) (fun _ => rfl) c
    simp only [DdlStmt.exec, execTablespaceCreate]
    split
    · rfl
    · split
      · rfl
      · split
        · rfl
        · exact catalog_acl hcreate
  | grant g => exact absurd rfl (hst g)

/-! ## Names that are used again -/

/-- No entry is for a particular user and the table. -/
def NoUserGrants (acl : List AclEntry) (table : Bytes) : Prop :=
  ∀ e ∈ acl, matchKind e.kind aclTable = true → matchObject e.object (some table) = true →
    sameName e.grantee publicName = true ∨ e.grantee = []

/-- The statement grants something on the table. -/
def DdlStmt.GrantsOn (table : Bytes) : DdlStmt σ → Prop
  | .grant g => g.revoke = false ∧ (parseGrantObject g.object).1 = aclTable ∧
      sameName (parseGrantObject g.object).2 table = true
  | _ => False

/-- The grants on a table come from statements that name it. -/
theorem noUserGrants_exec {table : Bytes} (h : NoUserGrants d.acl table) {st : DdlStmt σ}
    (hst : ¬ st.GrantsOn table) : NoUserGrants (st.exec E d).db.acl table := by
  by_cases hg : ∃ g, st = .grant g
  · obtain ⟨g, rfl⟩ := hg
    intro e he hkind hobj
    rcases mem_execGrant he with hold | ⟨hrev, hne, p, hp, rfl⟩
    · exact h e hold hkind hobj
    · refine absurd ⟨hrev, ?_, ?_⟩ hst
      · simpa [matchKind, parseGrantObject_kind] using hkind
      · simpa [matchObject_some hne] using hobj
  · rw [exec_acl st fun g heq => hg ⟨g, heq⟩]
    exact h

theorem noUserGrants_run {table : Bytes} (sts : List (DdlStmt σ)) : ∀ {d : State σ},
    NoUserGrants d.acl table → (∀ st ∈ sts, ¬ st.GrantsOn table) →
      NoUserGrants (runDdl E d sts).acl table := by
  induction sts with
  | nil => exact fun h _ => h
  | cons st sts ih =>
    intro d h hsts
    exact ih (noUserGrants_exec h (hsts st mem_cons_self))
      (forall_mem_cons.mp hsts).2

/-- **Grants and names.** A table that is created has no grants of users, until one is made, exactly
if there were none under its name; and a table that is renamed answers as before exactly if the two
names had the same answers. -/
theorem grants_follow_iff (E : DdlEngine σ) (d : State σ) :
    (∀ (ct : CreateTable σ) (sts : List (DdlStmt σ)), d.cat.findTable ct.name = none →
      ((execCreateTable E d ct).db.cat.findTable ct.name).isSome →
      (∀ st ∈ sts, ¬ st.GrantsOn ct.name) →
      ((∀ pre, pre <+: sts → NoUserGrants (runDdl E (execCreateTable E d ct).db pre).acl ct.name) ↔
        NoUserGrants d.acl ct.name)) ∧
    (∀ table newname, (execAlter E d table (.renameTable newname)).rc = .ok →
      ((∀ user priv, aclCheck (execAlter E d table (.renameTable newname)).db.acl user priv aclTable newname =
          aclCheck d.acl user priv aclTable table) ↔
        ∀ user priv, aclCheck d.acl user priv aclTable newname = aclCheck d.acl user priv aclTable table)) := by
  refine ⟨fun ct sts _ _ hsts => ⟨fun h => ?_, fun h pre hpre => ?_⟩, fun table newname _ => ?_⟩
  · have hnow := h [] List.nil_prefix
    rwa [show runDdl E (execCreateTable E d ct).db [] = (execCreateTable E d ct).db from rfl,
      execCreateTable_acl] at hnow
  · refine noUserGrants_run pre ?_ fun st hst => hsts st (hpre.subset hst)
    rw [execCreateTable_acl]
    exact h
  · rw [execAlter_acl]

/-- `CREATE TABLE`, without columns. -/
def createNamed (name : String) : CreateTable Unit :=
  ⟨name.toUTF8.toList, false, [], [], none, false, none, none, .none, [], 0, none, none⟩

/-- A grant on another table. -/
theorem grants_follow_new :
    let d := runDdl (idleEngine Unit) emptyState [.grant (grantWords false "SELECT" "s" "u")]
    NoUserGrants (runDdl (idleEngine Unit) (execCreateTable (idleEngine Unit) d (createNamed "t")).db
      [.grant (grantWords false "SELECT" "s" "v")]).acl "t".toUTF8.toList := by
  intro d
  have hother : ¬ (DdlStmt.grant (σ := Unit) (grantWords false "SELECT" "s" "v")).GrantsOn (createNamed "t").name :=
    fun h => absurd h.2.2 (by decide +kernel)
  have hnone : ∀ e ∈ d.acl, matchObject e.object (some (createNamed "t").name) = false := by
    decide +kernel
  refine ((grants_follow_iff (idleEngine Unit) d).1 (createNamed "t")
    [.grant (grantWords false "SELECT" "s" "v")] (by decide +kernel) (by decide +kernel)
    (by simpa using hother)).mpr (fun e he _ hobj => ?_) _ (List.prefix_refl _)
  exact absurd hobj (by rw [hnone e he]; decide)

/-- **The table is dropped and made again, and renamed.** -/
theorem grants_stay_with_name :
    let u := some "u".toUTF8.toList
    let select := "SELECT".toUTF8.toList
    let d := runDdl (idleEngine Unit) emptyState [.createTable (createNamed "t"),
      .grant (grantWords false "SELECT" "t" "u")]
    let again := runDdl (idleEngine Unit) d [.drop ⟨.table, false, "t".toUTF8.toList⟩,
      .createTable (createNamed "t")]
    let renamed := execAlter (idleEngine Unit) d "t".toUTF8.toList (.renameTable "s".toUTF8.toList)
    aclCheck again.acl u select aclTable "t".toUTF8.toList = true ∧
    renamed.rc = .ok ∧ aclCheck d.acl u select aclTable "t".toUTF8.toList = true ∧
    aclCheck renamed.db.acl u select aclTable "s".toUTF8.toList = false := by
  decide +kernel

end Ddl

end Tdb
