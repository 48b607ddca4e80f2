import TransactionDB.Sql.Session
import TransactionDB.Txn.Visibility

/-!
# TransactionDB — connections on contents kept in pages

A backend for any contents `σ` that are kept in pages, next to memory `τ` of the environment that
is not (the catalog in memory, for example). Pages are dirty while they hold changes that were not
committed (`page`); `stable` is what is committed. All connections read and write the same pages, so
a commit writes them and a rollback drops them, whoever made them dirty. Memory is never taken back.

A savepoint keeps the dirty pages; a return to it gives them their images back, or drops them if
there was none. What `VACUUM` makes of dirty pages depends on the free list and is left open.
-/

namespace Tdb

structure Paged (σ τ : Type) where
  mgr : TxnMgr
  page : Option σ
  stable : σ
  sps : List (Option σ)
  mem : τ

section Paged

variable {σ τ ρ ω : Type}

/-- The contents as every connection finds them. -/
def Paged.cur (m : Paged σ τ) : σ := m.page.getD m.stable

/-- What becomes of dirty pages. -/
inductive PagesFate where
  | kept
  | flushed
  | dropped
  deriving DecidableEq, Repr

def Paged.settle (m : Paged σ τ) : PagesFate → Paged σ τ
  | .kept => m
  | .flushed => { m with page := none, stable := m.cur, sps := [] }
  | .dropped => { m with page := none, sps := [] }

/-- How a program runs in a transaction: its result, the contents if it has written something, and
memory. -/
abbrev PagedRun (σ τ : Type) := Txn → TxnMgr → σ → τ → Status × Option σ × τ

/-- The backend whose queries and programs are given. -/
def pagedBackend (c : Codec) (vac : Pager → PagesFate) (query : ρ → Txn → TxnMgr → σ → τ → Status)
    (run : ω → PagedRun σ τ) : Backend (Paged σ τ) ρ ω where
  peekNext := fun m => m.mgr.next
  begin := fun m writable =>
    let (rc, mgr, t) := txnBegin c m.mgr .snapshot writable
    (rc, { m with mgr := mgr }, t)
  commit := fun m t =>
    let (rc, mgr) := txnCommit c m.mgr t
    (rc, .settle { m with mgr := mgr } (if t.writable ∧ rc = .ok then .flushed else .kept))
  rollback := fun m t =>
    let (rc, mgr) := txnRollback c m.mgr t
    (rc, .settle { m with mgr := mgr } (if t.writable then .dropped else .kept))
  savepoint := fun m t name =>
    let (rc, mgr, t) := txnSavepoint m.mgr t name
    (rc, { m with mgr := mgr, sps := if rc = .ok then m.sps ++ [m.page] else m.sps }, t)
  release := fun m t name =>
    let (rc, mgr, t') := txnRelease m.mgr t name
    let sps :=
      match findSp t name with
      | some (_, level) => if rc = .ok then m.sps.take level else m.sps
      | none => m.sps
    (rc, { m with mgr := mgr, sps := sps }, t')
  rollbackTo := fun m t name =>
    let (rc, mgr, t') := txnRollbackTo m.mgr t name
    let m := { m with mgr := mgr }
    let m :=
      match findSp t name with
      | some (_, level) =>
        if rc = .ok then
          { m with page := if m.page.isSome then m.sps[level]?.join else none,
                   sps := m.sps.take (level + 1) }
        else m
      | none => m
    (rc, m, t')
  vacuum := fun m =>
    let (rc, p) := pagerVacuum c m.mgr.pager
    (rc, .settle { m with mgr := { m.mgr with pager := p } } (vac m.mgr.pager))
  query := fun q t m => (query q t m.mgr m.cur m.mem, m)
  run := fun op t m =>
    let (rc, written, mem) := run op t m.mgr m.cur m.mem
    (rc, { m with page := written.orElse fun _ => m.page, mem := mem })

@[simp] theorem Paged.settle_mgr (m : Paged σ τ) (fate : PagesFate) : (m.settle fate).mgr = m.mgr := by
  cases fate <;> rfl

@[simp] theorem Paged.settle_mem (m : Paged σ τ) (fate : PagesFate) : (m.settle fate).mem = m.mem := by
  cases fate <;> rfl

/-! ## Memory -/

/-- The transaction in which a write runs and what it finds, unless it is refused. -/
def writeTxn {μ : Type} (b : Backend μ ρ ω) (s : Sess μ) : Option (μ × Txn) :=
  if s.writer = 0 ∨ s.writer = writeClaim b s.mgr s.txn then
    match s.txn with
    | some t => some (s.mgr, t)
    | none =>
      match b.begin s.mgr true with
      | (.ok, m, some t) => some (m, t)
      | _ => none
  else none

section Memory

variable (c : Codec) (vac : Pager → PagesFate) (query : ρ → Txn → TxnMgr → σ → τ → Status)
  (run : ω → PagedRun σ τ) (s : Sess (Paged σ τ))

theorem begin_mem (m : Paged σ τ) (writable : Bool) :
    ((pagedBackend c vac query run).begin m writable).2.1.mem = m.mem := rfl

theorem commit_mem (m : Paged σ τ) (t : Txn) :
    ((pagedBackend c vac query run).commit m t).2.mem = m.mem :=
  Paged.settle_mem _ _

theorem rollback_mem (m : Paged σ τ) (t : Txn) :
    ((pagedBackend c vac query run).rollback m t).2.mem = m.mem :=
  Paged.settle_mem _ _

theorem rollbackTo_mem (m : Paged σ τ) (t : Txn) (name : Bytes) :
    ((pagedBackend c vac query run).rollbackTo m t name).2.1.mem = m.mem := by
  simp only [pagedBackend]
  repeat' split
  all_goals rfl

/-- Transaction control leaves memory as it is. -/
theorem execTxn_mem (st : Stmt ρ ω) :
    (execTxn (pagedBackend c vac query run) s st).2.mgr.mem = s.mgr.mem := by
  obtain ⟨m, writer, txn, err⟩ := s
  cases st with
  | savepoint name =>
    cases txn with
    | some t => rfl
    | none =>
      have hbegin := begin_mem c vac query run m true
      unfold execTxn
      dsimp only
      generalize (pagedBackend c vac query run).begin m true = out at hbegin
      obtain ⟨rc, m', t⟩ := out
      split <;> simp_all [pagedBackend]
  | rollbackTo name =>
    cases txn with
    | some t => exact rollbackTo_mem c vac query run m t name
    | none => rfl
  | commit =>
    cases txn with
    | some t => exact commit_mem c vac query run m t
    | none => rfl
  | rollback =>
    cases txn with
    | some t => exact rollback_mem c vac query run m t
    | none => rfl
  | _ => cases txn <;> rfl

/-- A query leaves memory as it is. -/
theorem execSelect_mem (q : ρ) (streams : Bool) :
    (execSelect (pagedBackend c vac query run) s q streams).2.1.mgr.mem = s.mgr.mem := by
  obtain ⟨m, writer, txn, err⟩ := s
  cases txn with
  | some t => rfl
  | none =>
    have hbegin := begin_mem c vac query run m false
    unfold execSelect
    dsimp only
    generalize (pagedBackend c vac query run).begin m false = out at hbegin
    obtain ⟨rc, m', t⟩ := out
    split
    · cases streams with
      | true | false => simp_all [pagedBackend]
    · simp_all

/-- A write leaves in memory what its program leaves there, whatever becomes of the transaction. -/
theorem execWrite_mem (op : ω) :
    (execWrite (pagedBackend c vac query run) s op).2.mgr.mem =
      match writeTxn (pagedBackend c vac query run) s with
      | some (m, t) => (run op t m.mgr m.cur m.mem).2.2
      | none => s.mgr.mem := by
  unfold execWrite writeTxn acquireWriter
  by_cases hfree : s.writer = 0 ∨ s.writer = writeClaim (pagedBackend c vac query run) s.mgr s.txn
  · simp only [if_pos hfree]
    cases htxn : s.txn with
    | some t => rfl
    | none =>
      dsimp only
      have hbegin := begin_mem c vac query run s.mgr true
      generalize (pagedBackend c vac query run).begin s.mgr true = out at hbegin
      obtain ⟨rc, m', t⟩ := out
      split
      · rename_i m t heq
        obtain ⟨rfl, rfl, rfl⟩ : rc = .ok ∧ m' = m ∧ _ = some t := by simpa using heq
        dsimp only
        split
        · exact commit_mem c vac query run _ t
        · exact rollback_mem c vac query run _ t
      · split <;> simp_all
  · simp only [if_neg hfree]
    by_cases hlt : writeClaim (pagedBackend c vac query run) s.mgr s.txn < s.writer
    · rw [if_pos hlt]
    · rw [if_neg hlt]

/-- A write finds memory as the statement before it has left it. -/
theorem writeTxn_mem {m : Paged σ τ} {t : Txn}
    (h : writeTxn (pagedBackend c vac query run) s = some (m, t)) : m.mem = s.mgr.mem := by
  unfold writeTxn at h
  split at h
  · split at h
    · cases h
      rfl
    · have hbegin := begin_mem c vac query run s.mgr true
      split at h
      · rename_i m' t' heq
        cases h
        rw [← hbegin, heq]
      · cases h
  · cases h

/-- What a statement leaves in memory. -/
theorem stmtExecute_mem (st : Stmt ρ ω) :
    (stmtExecute (pagedBackend c vac query run) s st).2.1.mgr.mem =
      match st with
      | .write op =>
        match writeTxn (pagedBackend c vac query run) s with
        | some (m, t) => (run op t m.mgr m.cur m.mem).2.2
        | none => s.mgr.mem
      | _ => s.mgr.mem := by
  cases st with
  | write op => exact execWrite_mem c vac query run s op
  | select q streams => exact execSelect_mem c vac query run s q streams
  | explain => rfl
  | vacuum =>
    simp only [stmtExecute]
    split
    · rfl
    · exact Paged.settle_mem _ _
  | begin => exact execTxn_mem c vac query run s .begin
  | commit => exact execTxn_mem c vac query run s .commit
  | rollback => exact execTxn_mem c vac query run s .rollback
  | savepoint name => exact execTxn_mem c vac query run s (.savepoint name)
  | release name => exact execTxn_mem c vac query run s (.release name)
  | rollbackTo name => exact execTxn_mem c vac query run s (.rollbackTo name)

end Memory

end Paged

end Tdb
