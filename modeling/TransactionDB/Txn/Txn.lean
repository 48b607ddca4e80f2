import TransactionDB.Storage.PagerTxn

/-!
# TransactionDB — transactions

`src/txn/tdb_txn.c`: the transaction manager over a pager. It hands out ids, keeps the
state of this session's transactions, takes snapshots, and maps the names of savepoints to
levels of the pager's savepoint stack. Locks are left out: releasing them cannot fail and
changes nothing here. A manager is used by one thread at a time.
-/

namespace Tdb

/-- `tdb_isolation`. -/
inductive Isolation where
  | readCommitted
  | snapshot
  | serializable
  deriving DecidableEq, Repr

/-- `tdb_xstate`. -/
inductive XState where
  | active
  | committed
  | aborted
  deriving DecidableEq, Repr

/-- `tdb_snapshot`. -/
structure Snapshot where
  self : UInt64
  xmax : UInt64
  active : List UInt64
  deriving DecidableEq, Repr

/-- `struct tdb_txnmgr`, with its pager. -/
structure TxnMgr where
  pager : Pager
  base : UInt64
  next : UInt64
  recs : List (UInt64 × XState)
  active : List UInt64

/-- `tdb_txn`. The savepoint stack grows at its end: names with pager levels. -/
structure Txn where
  id : UInt64
  iso : Isolation
  snap : Snapshot
  state : XState
  writable : Bool
  sps : List (Bytes × Nat)

/-- `tdb_txnmgr_open`. -/
def txnmgrOpen (p : Pager) : TxnMgr := ⟨p, p.hdr.maxTxnid, p.hdr.maxTxnid + 1, [], []⟩

/-- `set_state`: the first record of this id is changed, or a new one added. -/
def setState : List (UInt64 × XState) → UInt64 → XState → List (UInt64 × XState)
  | [], id, st => [(id, st)]
  | r :: recs, id, st => if r.1 = id then (id, st) :: recs else r :: setState recs id st

/-- `active_remove`: the last entry takes the place of the removed one. -/
def activeRemove (active : List UInt64) (id : UInt64) : List UInt64 :=
  match active.findIdx? (fun a => a = id) with
  | none => active
  | some i => (active.set i (active.getLastD 0)).take (active.length - 1)

/-- `take_snapshot`. -/
def takeSnapshot (m : TxnMgr) (id : UInt64) : Snapshot := ⟨id, m.next, m.active⟩

/-- `tdb_txn_rollback`. -/
def txnRollback (c : Codec) (m : TxnMgr) (t : Txn) : Status × TxnMgr :=
  let (rc, p) := if t.writable then pagerRollback c m.pager else (.ok, m.pager)
  (rc, { m with pager := p, recs := setState m.recs t.id .aborted,
                active := activeRemove m.active t.id })

/-- `tdb_txn_begin`. -/
def txnBegin (c : Codec) (m : TxnMgr) (iso : Isolation) (writable : Bool) :
    Status × TxnMgr × Option Txn :=
  let id := m.next
  let m := { m with next := m.next + 1, recs := setState m.recs id .active,
                    active := m.active ++ [id] }
  let t : Txn := ⟨id, iso, takeSnapshot m id, .active, writable, []⟩
  if writable then
    match pagerBegin m.pager with
    | (.ok, p) => (.ok, { m with pager := p }, some t)
    | (rc, p) => (rc, (txnRollback c { m with pager := p } t).2, none)
  else (.ok, m, some t)

/-- `tdb_txn_commit`. A failed commit marks the transaction aborted; the pager is left as
`tdb_pager_commit` left it. -/
def txnCommit (c : Codec) (m : TxnMgr) (t : Txn) : Status × TxnMgr :=
  let (rc, p) :=
    if t.writable then pagerCommit c (setMaxTxnid m.pager t.id) else (.ok, m.pager)
  (rc, { m with pager := p,
                recs := setState m.recs t.id (if rc = .ok then .committed else .aborted),
                active := activeRemove m.active t.id })

/-! ## Savepoints -/

/-- The loop of `find_sp`, over the indices below `n` from the top. -/
def findSpBelow (sps : List (Bytes × Nat)) (name : Bytes) : Nat → Option (Nat × Nat)
  | 0 => none
  | i + 1 =>
    match sps[i]? with
    | some sp => if sameName sp.1 name then some (i, sp.2) else findSpBelow sps name i
    | none => findSpBelow sps name i

/-- `find_sp`: the index of the innermost savepoint of this name, and its level. -/
def findSp (t : Txn) (name : Bytes) : Option (Nat × Nat) := findSpBelow t.sps name t.sps.length

/-- `tdb_txn_savepoint`. -/
def txnSavepoint (m : TxnMgr) (t : Txn) (name : Bytes) : Status × TxnMgr × Txn :=
  if t.writable then
    match pagerSavepoint m.pager with
    | (some level, p) => (.ok, { m with pager := p }, { t with sps := t.sps ++ [(name, level)] })
    | (none, p) => (.error, { m with pager := p }, t)
  else (.readonly, m, t)

/-- `tdb_txn_release`. -/
def txnRelease (m : TxnMgr) (t : Txn) (name : Bytes) : Status × TxnMgr × Txn :=
  match findSp t name with
  | none => (.notfound, m, t)
  | some (i, level) =>
    let (rc, p) := pagerRelease m.pager level
    (rc, { m with pager := p }, { t with sps := t.sps.take i })

/-- `tdb_txn_rollback_to`. -/
def txnRollbackTo (m : TxnMgr) (t : Txn) (name : Bytes) : Status × TxnMgr × Txn :=
  match findSp t name with
  | none => (.notfound, m, t)
  | some (i, level) =>
    let (rc, p) := pagerRollbackTo m.pager level
    (rc, { m with pager := p }, { t with sps := t.sps.take (i + 1) })

/-- The innermost savepoint of a name is the last one in the list. -/
theorem findSpBelow_append (outer inner : List (Bytes × Nat)) {sp : Bytes × Nat} {name : Bytes}
    (hname : sameName sp.1 name = true) (hinner : ∀ s ∈ inner, sameName s.1 name = false) :
    ∀ n, outer.length < n → n ≤ outer.length + 1 + inner.length →
      findSpBelow (outer ++ sp :: inner) name n = some (outer.length, sp.2) := by
  intro n
  induction n with
  | zero => exact fun h => absurd h (by omega)
  | succ i ih =>
    intro hlo hhi
    unfold findSpBelow
    by_cases hi : i = outer.length
    · subst hi
      simp [hname]
    · -- an entry above the one looked for
      have hget : (outer ++ sp :: inner)[i]? = inner[i - outer.length - 1]? := by
        rw [List.getElem?_append_right (by omega), List.getElem?_cons,
          if_neg (by omega)]
      obtain ⟨s, hs⟩ : ∃ s, inner[i - outer.length - 1]? = some s :=
        ⟨_, List.getElem?_eq_getElem (by omega)⟩
      rw [hget, hs]
      simp only [hinner s (List.mem_of_getElem? hs), Bool.false_eq_true, if_false]
      exact ih (by omega) (by omega)

theorem findSp_eq {t : Txn} {outer inner : List (Bytes × Nat)} {sp : Bytes × Nat} {name : Bytes}
    (hsps : t.sps = outer ++ sp :: inner) (hname : sameName sp.1 name = true)
    (hinner : ∀ s ∈ inner, sameName s.1 name = false) :
    findSp t name = some (outer.length, sp.2) := by
  unfold findSp
  rw [hsps]
  exact findSpBelow_append outer inner hname hinner _ (by simp) (by simp; omega)

end Tdb
