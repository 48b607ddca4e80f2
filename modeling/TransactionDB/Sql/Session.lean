import TransactionDB.Txn.Txn

/-!
# TransactionDB — connections on a shared environment

`stmt_execute_locked` of `src/sql/tdb_exec.c`, `exec_txn` of `src/sql/tdb_exec_dml.inc`, the
writer slot of `src/api/tdb_env.c` and `tdb_close` of `src/api/tdb_api.c`. Connections of one
environment share its transaction manager and storage; each has at most one transaction. The
environment is locked for the length of a statement, so statements run one at a time.

The layer is written over a `Backend`: what the transaction manager does, and what a query or
another statement does inside a transaction. Left out are the flag `autocommit` of a
connection, which is written and never read, and statements run from within Lua routines.
-/

namespace Tdb

/-- What statements run on: a transaction manager with its storage `μ`, queries `ρ` and the
programs `ω` of all other statements. -/
structure Backend (μ ρ ω : Type*) where
  /-- `tdb_txnmgr_peek_next`. -/
  peekNext : μ → UInt64
  /-- `tdb_txn_begin` under snapshot isolation, for a writable transaction or not. -/
  begin : μ → Bool → Status × μ × Option Txn
  commit : μ → Txn → Status × μ
  rollback : μ → Txn → Status × μ
  savepoint : μ → Txn → Bytes → Status × μ × Txn
  release : μ → Txn → Bytes → Status × μ × Txn
  rollbackTo : μ → Txn → Bytes → Status × μ × Txn
  vacuum : μ → Status × μ
  query : ρ → Txn → μ → Status × μ
  run : ω → Txn → μ → Status × μ

/-- Statements. Everything that is neither transaction control, `EXPLAIN`, `VACUUM` nor a
query counts as a write. A query may be carried out row by row by later calls (`streams`). -/
inductive Stmt (ρ ω : Type*) where
  | begin
  | commit
  | rollback
  | savepoint (name : Bytes)
  | release (name : Bytes)
  | rollbackTo (name : Bytes)
  | explain
  | vacuum
  | select (q : ρ) (streams : Bool)
  | write (op : ω)

def Stmt.isWrite {ρ ω : Type*} : Stmt ρ ω → Bool
  | .write _ => true
  | _ => false

/-- The messages this layer leaves in a connection. -/
inductive ErrMsg where
  /-- "cannot start a transaction within a transaction" -/
  | nestedTransaction
  /-- "no such savepoint: %s" -/
  | noSuchSavepoint (name : Bytes)
  /-- "cannot VACUUM within a transaction" -/
  | vacuumInTransaction
  /-- "database is locked (write conflict)" -/
  | locked
  deriving DecidableEq, Repr

/-- What a statement works on: the shared manager and writer slot, and the connection's
transaction and message. -/
structure Sess (μ : Type*) where
  mgr : μ
  writer : UInt64
  txn : Option Txn
  err : Option ErrMsg

/-! ## The writer slot -/

/-- `tdb_env_acquire_writer`. -/
def acquireWriter (writer txn : UInt64) : Status × UInt64 :=
  if writer = 0 ∨ writer = txn then (.ok, txn)
  -- wait-die: the older transaction waits, the younger one aborts
  else (if txn < writer then .busy else .abort, writer)

/-- `tdb_env_release_writer`. -/
def releaseWriter (writer txn : UInt64) : UInt64 := if writer = txn then 0 else writer

section

variable {μ ρ ω : Type*} (b : Backend μ ρ ω)

/-! ## Statements -/

/-- `exec_txn`. -/
def execTxn (s : Sess μ) : Stmt ρ ω → Status × Sess μ
  | .begin =>
    match s.txn with
    | some _ => (.error, { s with err := some .nestedTransaction })
    | none =>
      let (rc, m, t) := b.begin s.mgr true
      (rc, { s with mgr := m, txn := t })
  | .commit =>
    match s.txn with
    | some t =>
      let (rc, m) := b.commit s.mgr t
      (rc, { s with mgr := m, txn := none, writer := releaseWriter s.writer t.id })
    | none => (.ok, s)
  | .rollback =>
    match s.txn with
    | some t =>
      let (rc, m) := b.rollback s.mgr t
      (rc, { s with mgr := m, txn := none, writer := releaseWriter s.writer t.id })
    | none => (.ok, s)
  | .savepoint name =>
    match s.txn with
    | some t =>
      let (rc, m, t) := b.savepoint s.mgr t name
      (rc, { s with mgr := m, txn := some t })
    | none =>
      -- a transaction is started implicitly
      match b.begin s.mgr true with
      | (.ok, m, some t) =>
        let (rc, m, t) := b.savepoint m t name
        (rc, { s with mgr := m, txn := some t })
      | (rc, m, t) => (rc, { s with mgr := m, txn := t })
  | .release name =>
    match s.txn with
    | some t =>
      let (rc, m, t) := b.release s.mgr t name
      (rc, { s with mgr := m, txn := some t,
                    err := if rc = .notfound then some (.noSuchSavepoint name) else s.err })
    | none => (.error, { s with err := some (.noSuchSavepoint name) })
  | .rollbackTo name =>
    match s.txn with
    | some t =>
      let (rc, m, t) := b.rollbackTo s.mgr t name
      (rc, { s with mgr := m, txn := some t,
                    err := if rc = .notfound then some (.noSuchSavepoint name) else s.err })
    | none => (.error, { s with err := some (.noSuchSavepoint name) })
  | _ => (.ok, s)

/-- A query: inside the open transaction, or in a read-only one of its own. If it streams, it
keeps that transaction, which is returned; otherwise it is rolled back. -/
def execSelect (s : Sess μ) (q : ρ) (streams : Bool) : Status × Sess μ × Option Txn :=
  match s.txn with
  | some t =>
    let (rc, m) := b.query q t s.mgr
    (rc, { s with mgr := m }, none)
  | none =>
    match b.begin s.mgr false with
    | (.ok, m, some t) =>
      let (rc, m) := b.query q t m
      if streams then (.ok, { s with mgr := m }, some t)
      else
        let (_, m) := b.rollback m t
        let writer := if t.id ≠ 0 then releaseWriter s.writer t.id else s.writer
        (rc, { s with mgr := m, writer := writer }, none)
    | (rc, m, _) => (rc, { s with mgr := m }, none)

/-- The id a write claims the slot with: that of the open transaction, or the one that the
next transaction will get. -/
def writeClaim (m : μ) : Option Txn → UInt64
  | some t => t.id
  | none => b.peekNext m

/-- Any other statement. It claims the writer slot first. Without an open transaction it runs
in one of its own, which ends with it. -/
def execWrite (s : Sess μ) (op : ω) : Status × Sess μ :=
  match acquireWriter s.writer (writeClaim b s.mgr s.txn) with
  | (.ok, writer) =>
    match s.txn with
    | some t =>
      let (rc, m) := b.run op t s.mgr
      (rc, { s with mgr := m, writer := writer })
    | none =>
      match b.begin s.mgr true with
      | (.ok, m, some t) =>
        let (rc, m) := b.run op t m
        let (rc, m) := if rc = .ok then b.commit m t else (rc, (b.rollback m t).2)
        -- the slot was keyed to the id assigned
        let writer := if t.id ≠ 0 then releaseWriter t.id t.id else t.id
        (rc, { s with mgr := m, writer := writer })
      | (rc, m, _) => (rc, { s with mgr := m, writer := releaseWriter writer (b.peekNext m) })
  | (rc, _) => (rc, { s with err := some .locked })

/-- `stmt_execute_locked`; the third part is the transaction that a streaming query keeps. -/
def stmtExecute (s : Sess μ) : Stmt ρ ω → Status × Sess μ × Option Txn
  | .explain => (.ok, s, none)
  | .vacuum =>
    if s.txn.isSome then (.error, { s with err := some .vacuumInTransaction }, none)
    else
      let (rc, m) := b.vacuum s.mgr
      (rc, { s with mgr := m }, none)
  | .select q streams => execSelect b s q streams
  | .write op =>
    let (rc, s) := execWrite b s op
    (rc, s, none)
  | st =>
    let (rc, s) := execTxn b s st
    (rc, s, none)

end

/-! ## Connections -/

/-- `tdb_db`. A closed connection keeps its place and has no transaction. -/
structure Conn where
  isOpen : Bool
  txn : Option Txn
  err : Option ErrMsg

/-- `tdb_env` with its connections, and the transactions that streaming queries keep. -/
structure World (μ : Type*) where
  mgr : μ
  writer : UInt64
  conns : List Conn
  streams : List Txn

/-- The id of the transaction that connection `i` has open. -/
def World.idAt {μ : Type*} (w : World μ) (i : Nat) : Option UInt64 :=
  w.conns[i]?.bind (fun conn => conn.txn.map Txn.id)

/-- A new environment with one connection. -/
def World.new {μ : Type*} (m : μ) : World μ := ⟨m, 0, [⟨true, none, none⟩], []⟩

/-- The environment lives as long as some connection is open. -/
def World.alive {μ : Type*} (w : World μ) : Bool := w.conns.any (fun conn => conn.isOpen)

inductive Event (ρ ω : Type*) where
  /-- Another connection to the same environment. -/
  | connect
  | exec (i : Nat) (st : Stmt ρ ω)
  /-- A streaming query reads on. -/
  | fetch (k : Nat) (q : ρ)
  /-- A streaming query ends. -/
  | finish (k : Nat)
  | close (i : Nat)

section

variable {μ ρ ω : Type*} (b : Backend μ ρ ω)

/-- A statement on connection `i`. -/
def World.exec (w : World μ) (i : Nat) (st : Stmt ρ ω) : Status × World μ :=
  match w.conns[i]? with
  | some ⟨true, txn, err⟩ =>
    let (rc, s, own) := stmtExecute b ⟨w.mgr, w.writer, txn, err⟩ st
    (rc, { w with mgr := s.mgr, writer := s.writer, conns := w.conns.set i ⟨true, s.txn, s.err⟩,
                  streams := w.streams ++ own.toList })
  | _ => (.misuse, w)

/-- `tdb_close`. -/
def World.close (w : World μ) (i : Nat) : World μ :=
  match w.conns[i]? with
  | some ⟨true, txn, _⟩ =>
    let m := match txn with
      | some t => (b.rollback w.mgr t).2
      | none => w.mgr
    { w with mgr := m, conns := w.conns.set i ⟨false, none, none⟩ }
  | _ => w

def World.step (w : World μ) : Event ρ ω → World μ
  | .connect => if w.alive then { w with conns := w.conns ++ [⟨true, none, none⟩] } else w
  | .exec i st => (w.exec b i st).2
  | .fetch k q =>
    match w.streams[k]? with
    | some t => { w with mgr := (b.query q t w.mgr).2 }
    | none => w
  | .finish k =>
    match w.streams[k]? with
    | some t => { w with mgr := (b.rollback w.mgr t).2, streams := w.streams.eraseIdx k }
    | none => w
  | .close i => w.close b i

def World.run (w : World μ) (es : List (Event ρ ω)) : World μ := es.foldl (World.step b) w

end

/-! ## The storage as a pager -/

/-- The manager of `Txn` over its pager. A query reads pages, another statement changes pages
and the header; both are given by what they do to pages, and by their result. -/
def pagerBackend (c : Codec) : Backend TxnMgr (List UInt32 × Status) (List PageOp × Status) where
  peekNext := fun m => m.next
  begin := fun m writable => txnBegin c m .snapshot writable
  commit := txnCommit c
  rollback := txnRollback c
  savepoint := txnSavepoint
  release := txnRelease
  rollbackTo := txnRollbackTo
  vacuum := fun m =>
    let (rc, p) := pagerVacuum c m.pager
    (rc, { m with pager := p })
  query := fun q _ m => (q.2, { m with pager := (q.1.map PageOp.get).foldl (PageOp.run c) m.pager })
  run := fun op _ m => (op.2, { m with pager := op.1.foldl (PageOp.run c) m.pager })

end Tdb
