import TransactionDB.Common.Util

/-!
# TransactionDB — the access-control list

`src/catalog/tdb_acl.c`. An entry pairs a grantee with a privilege on an object; the list is read
from its head, where a grant puts the new entry.

A statement that grants writes an entry to the list and a record to the catalog, and the list is
read back by granting the records in order. That this gives the list again rests on two facts about
the list alone: a grant of an entry that is there changes nothing, and what a revocation removes
does not depend on which of two equal entries is in the list (`foldl_add_filter`).
-/

namespace Tdb

/-- `TDB_ACL_TABLE`. -/
def aclTable : UInt8 := 1

/-- `tdb_acl_entry`; the kind is a `TDB_ACL_*` number. -/
structure AclEntry where
  grantee : Bytes
  priv : Bytes
  kind : UInt8
  object : Option Bytes
  deriving DecidableEq, Repr

/-- `toupper` in the C locale. -/
def upperAscii (b : UInt8) : UInt8 := if 97 ≤ b ∧ b ≤ 122 then b - 32 else b

/-- `match_grantee`, `match_priv` and `match_object`: a filter that is missing, empty or the
wildcard lets everything through. -/
def matchText (wild : Option Bytes) (want actual : Option Bytes) : Bool :=
  match want with
  | none => true
  | some [] => true
  | some w => wild.any (sameName w) || actual.any (sameName w)

def matchGrantee (want user : Option Bytes) : Bool :=
  matchText (some "PUBLIC".toUTF8.toList) want user

def matchPriv (want priv : Option Bytes) : Bool := matchText (some "ALL".toUTF8.toList) want priv

def matchKind (want kind : UInt8) : Bool := want = 0 || want = kind

def matchObject (want object : Option Bytes) : Bool := matchText none want object

/-- `tdb_acl_check`; without a user every check passes. -/
def aclCheck (acl : List AclEntry) (user : Option Bytes) (priv : Bytes) (kind : UInt8)
    (object : Bytes) : Bool :=
  user.isNone || acl.any fun e =>
    matchGrantee (some e.grantee) user && matchPriv (some e.priv) (some priv) &&
      matchKind e.kind kind && matchObject e.object (some object)

/-- `entry_equal`. -/
def entryEqual (a b : AclEntry) : Bool :=
  a.kind = b.kind && sameName a.grantee b.grantee && sameName a.priv b.priv &&
    match a.object, b.object with
    | none, none => true
    | some x, some y => sameName x y
    | _, _ => false

/-- The entry at the head of the list, unless an equal one is there. -/
def aclAdd (acl : List AclEntry) (e : AclEntry) : List AclEntry :=
  if acl.any (entryEqual · e) then acl else e :: acl

/-- `tdb_acl_grant`. -/
def aclGrant (acl : List AclEntry) (grantee priv : Option Bytes) (kind : UInt8)
    (object : Option Bytes) : Status × List AclEntry :=
  match grantee, priv with
  | some g, some p =>
    if kind = 0 then (.misuse, acl) else (.ok, aclAdd acl ⟨g, p.map upperAscii, kind, object⟩)
  | _, _ => (.misuse, acl)

/-- Whether `tdb_acl_revoke` removes the entry. -/
def revokes (grantee priv : Option Bytes) (kind : UInt8) (object : Option Bytes) (e : AclEntry) :
    Bool :=
  matchGrantee grantee (some e.grantee) && matchPriv priv (some e.priv) &&
    matchKind kind e.kind && matchObject object e.object

/-- `tdb_acl_revoke`. -/
def aclRevoke (acl : List AclEntry) (grantee priv : Option Bytes) (kind : UInt8)
    (object : Option Bytes) : List AclEntry :=
  acl.filter fun e => !revokes grantee priv kind object e

/-! ## Equal entries -/

theorem sameName_iff {a b : Bytes} : sameName a b = true ↔ a.map lowerAscii = b.map lowerAscii :=
  decide_eq_true_iff

theorem sameName_refl (a : Bytes) : sameName a a = true := sameName_iff.mpr rfl

theorem sameName_congr {a b : Bytes} (h : sameName a b = true) (w : Bytes) :
    sameName w a = sameName w b := by
  rw [Bool.eq_iff_iff, sameName_iff, sameName_iff, sameName_iff.mp h]

theorem sameName_congr_left {a b : Bytes} (h : sameName a b = true) (w : Bytes) :
    sameName a w = sameName b w := by
  rw [Bool.eq_iff_iff, sameName_iff, sameName_iff, sameName_iff.mp h]

theorem lowerAscii_upperAscii (b : UInt8) : lowerAscii (upperAscii b) = lowerAscii b := by
  have hall : ∀ n : Fin 256, lowerAscii (upperAscii (.ofFin n)) = lowerAscii (.ofFin n) := by
    decide +kernel
  exact hall b.toFin

@[simp] theorem sameName_upper (w p : Bytes) : sameName w (p.map upperAscii) = sameName w p := by
  simp [sameName, Function.comp_def, lowerAscii_upperAscii]

theorem upperAscii_upperAscii (b : UInt8) : upperAscii (upperAscii b) = upperAscii b := by
  have hall : ∀ n : Fin 256, upperAscii (upperAscii (.ofFin n)) = upperAscii (.ofFin n) := by
    decide +kernel
  exact hall b.toFin

/-- What decides whether two entries are equal. -/
def AclEntry.folded (e : AclEntry) : Bytes × Bytes × UInt8 × Option Bytes :=
  (e.grantee.map lowerAscii, e.priv.map lowerAscii, e.kind, e.object.map (List.map lowerAscii))

theorem entryEqual_iff {a b : AclEntry} : entryEqual a b = true ↔ a.folded = b.folded := by
  obtain ⟨ag, ap, ak, ao⟩ := a
  obtain ⟨bg, bp, bk, bo⟩ := b
  cases ao <;> cases bo <;> simp [entryEqual, AclEntry.folded, sameName_iff] <;> tauto

theorem matchText_congr {a b : Bytes} (h : a.map lowerAscii = b.map lowerAscii)
    (wild want : Option Bytes) : matchText wild want (some a) = matchText wild want (some b) := by
  rcases want with - | (- | ⟨c, w⟩)
  · rfl
  · rfl
  · simp only [matchText, Option.any_some, sameName_congr (sameName_iff.mpr h)]

/-- A revocation does not tell equal entries apart. -/
theorem revokes_congr {a b : AclEntry} (h : a.folded = b.folded) (grantee priv : Option Bytes)
    (kind : UInt8) (object : Option Bytes) :
    revokes grantee priv kind object a = revokes grantee priv kind object b := by
  simp only [AclEntry.folded, Prod.mk.injEq] at h
  obtain ⟨hg, hp, hk, ho⟩ := h
  have hobj : matchObject object a.object = matchObject object b.object := by
    cases ha : a.object with
    | none =>
      cases hb : b.object with
      | none => rfl
      | some y => simp [ha, hb] at ho
    | some x =>
      cases hb : b.object with
      | none => simp [ha, hb] at ho
      | some y =>
        rw [ha, hb] at ho
        exact matchText_congr (by simpa using ho) none object
  rw [revokes, revokes, hk, hobj, matchGrantee, matchGrantee, matchPriv, matchPriv,
    matchText_congr hg, matchText_congr hp]

/-! ## Granting a list of entries -/

/-- An entry with the same folded text is in the list. -/
theorem aclAdd_eq (acl : List AclEntry) (e : AclEntry) :
    aclAdd acl e = if e.folded ∈ acl.map AclEntry.folded then acl else e :: acl := by
  have hany : acl.any (entryEqual · e) = true ↔ e.folded ∈ acl.map AclEntry.folded := by
    simp only [List.any_eq_true, entryEqual_iff, List.mem_map]
  rw [aclAdd]
  simp only [hany]

section

variable {keep : AclEntry → Bool} (hkeep : ∀ a b : AclEntry, a.folded = b.folded → keep a = keep b)

include hkeep

/-- Adding an entry keeps what is removed apart from what stays. -/
theorem aclAdd_filter (acl : List AclEntry) (e : AclEntry) :
    (aclAdd acl e).filter keep = if keep e then aclAdd (acl.filter keep) e else acl.filter keep := by
  rw [aclAdd_eq, aclAdd_eq]
  cases hk : keep e with
  | false => split <;> simp [hk]
  | true =>
    have hmem : e.folded ∈ (acl.filter keep).map AclEntry.folded ↔ e.folded ∈ acl.map AclEntry.folded := by
      simp only [List.mem_map, List.mem_filter]
      constructor
      · rintro ⟨a, ⟨ha, -⟩, hf⟩
        exact ⟨a, ha, hf⟩
      · rintro ⟨a, ha, hf⟩
        exact ⟨a, ⟨ha, (hkeep a e hf).trans hk⟩, hf⟩
    simp only [hmem, if_true]
    split <;> simp [hk]

/-- Entries that are granted one after the other and then revoked are those that were granted
without the revoked ones. -/
theorem foldl_add_filter (es : List AclEntry) :
    ∀ acl : List AclEntry,
      (es.foldl aclAdd acl).filter keep = (es.filter keep).foldl aclAdd (acl.filter keep) := by
  induction es with
  | nil => intro acl; rfl
  | cons e es ih =>
    intro acl
    rw [List.foldl_cons, ih, aclAdd_filter hkeep]
    cases hk : keep e <;> simp [hk]

end

end Tdb
