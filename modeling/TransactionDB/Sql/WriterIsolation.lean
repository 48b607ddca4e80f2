import TransactionDB.Sql.WriterSlot
import TransactionDB.Storage.CacheKeys

/-!
# TransactionDB — whose pages a statement touches

All connections of an environment share one set of dirty pages. While a transaction holds the
writer slot, a statement on another connection should not drop one of its pages, change it or
write it to the log. The slot keeps other connections from writing, but transaction control
does not ask for it: `COMMIT` and `ROLLBACK` work on the whole set of dirty pages, whoever made
them dirty, and so do `ROLLBACK TO` and `VACUUM`.

* `Untouched`: every dirty page is as before, and so is what is stored for it.
* `LeavesPages`: the condition on a statement of another connection.
* `WriterIsolated`: the property, along a run.
-/

namespace Tdb

open List

variable {μ ρ ω : Type*}

/-! ## What a backend keeps -/

/-- All operations of a backend keep `P`. -/
structure Backend.Keeps (b : Backend μ ρ ω) (P : μ → Prop) : Prop where
  begin : ∀ m writable, P m → P (b.begin m writable).2.1
  commit : ∀ m t, P m → P (b.commit m t).2
  rollback : ∀ m t, P m → P (b.rollback m t).2
  savepoint : ∀ m t name, P m → P (b.savepoint m t name).2.1
  release : ∀ m t name, P m → P (b.release m t name).2.1
  rollbackTo : ∀ m t name, P m → P (b.rollbackTo m t name).2.1
  vacuum : ∀ m, P m → P (b.vacuum m).2
  query : ∀ q t m, P m → P (b.query q t m).2
  run : ∀ op t m, P m → P (b.run op t m).2

section Keeps

variable {b : Backend μ ρ ω} {P : μ → Prop} {s : Sess μ} {w : World μ}

section

variable (hb : b.Keeps P) (hs : P s.mgr)

include hb hs

theorem execTxn_keeps (st : Stmt ρ ω) :
    P (execTxn b s st).2.mgr := by
  obtain ⟨m, writer, txn, err⟩ := s
  cases st with
  | begin =>
    cases txn with
    | some t => exact hs
    | none => exact hb.begin _ _ hs
  | commit =>
    cases txn with
    | some t => exact hb.commit _ t hs
    | none => exact hs
  | rollback =>
    cases txn with
    | some t => exact hb.rollback _ t hs
    | none => exact hs
  | savepoint name =>
    cases txn with
    | some t => exact hb.savepoint _ t name hs
    | none =>
      have hbegin := hb.begin m true hs
      simp only [execTxn]
      split
      · rename_i m t heq
        rw [heq] at hbegin
        exact hb.savepoint _ t name hbegin
      · rename_i heq
        rw [heq] at hbegin
        exact hbegin
  | release name =>
    cases txn with
    | some t => exact hb.release _ t name hs
    | none => exact hs
  | rollbackTo name =>
    cases txn with
    | some t => exact hb.rollbackTo _ t name hs
    | none => exact hs
  | explain | vacuum | select q streams | write op => exact hs

theorem execSelect_keeps (q : ρ) (streams : Bool) :
    P (execSelect b s q streams).2.1.mgr := by
  unfold execSelect
  split
  · exact hb.query q _ _ hs
  · have hbegin := hb.begin s.mgr false hs
    split
    · rename_i m t heq
      rw [heq] at hbegin
      have hquery := hb.query q t m hbegin
      dsimp only
      split
      · exact hquery
      · exact hb.rollback _ t hquery
    · rename_i heq
      rw [heq] at hbegin
      exact hbegin

theorem execWrite_keeps (op : ω) :
    P (execWrite b s op).2.mgr := by
  unfold execWrite
  split
  · split
    · exact hb.run op _ _ hs
    · have hbegin := hb.begin s.mgr true hs
      split
      · rename_i m t heq
        rw [heq] at hbegin
        have hrun := hb.run op t m hbegin
        dsimp only
        split
        · exact hb.commit _ t hrun
        · exact hb.rollback _ t hrun
      · rename_i heq
        rw [heq] at hbegin
        exact hbegin
  · exact hs

theorem stmtExecute_keeps (st : Stmt ρ ω) :
    P (stmtExecute b s st).2.1.mgr := by
  cases st with
  | explain => exact hs
  | vacuum =>
    simp only [stmtExecute]
    split
    · exact hs
    · exact hb.vacuum _ hs
  | select q streams => exact execSelect_keeps hb hs q streams
  | write op => exact execWrite_keeps hb hs op
  | begin => exact execTxn_keeps hb hs .begin
  | commit => exact execTxn_keeps hb hs .commit
  | rollback => exact execTxn_keeps hb hs .rollback
  | savepoint name => exact execTxn_keeps hb hs (.savepoint name)
  | release name => exact execTxn_keeps hb hs (.release name)
  | rollbackTo name => exact execTxn_keeps hb hs (.rollbackTo name)

end

theorem World.step_keeps (hb : b.Keeps P) (hw : P w.mgr) (e : Event ρ ω) :
    P (w.step b e).mgr := by
  cases e with
  | connect =>
    simp only [World.step]
    split <;> exact hw
  | exec i st =>
    by_cases hopen : ∃ txn err, w.conns[i]? = some ⟨true, txn, err⟩
    · obtain ⟨txn, err, hi⟩ := hopen
      obtain ⟨rc, s', own, hrun, hexec⟩ := World.exec_of_open (b := b) hi st
      have hkeep := stmtExecute_keeps hb (s := ⟨w.mgr, w.writer, txn, err⟩) hw st
      rw [hrun] at hkeep
      simp only [World.step, hexec]
      exact hkeep
    · simp only [World.step, World.exec_of_not_open fun txn err hi => hopen ⟨txn, err, hi⟩]
      exact hw
  | fetch k q =>
    simp only [World.step]
    split
    · exact hb.query q _ _ hw
    · exact hw
  | finish k =>
    simp only [World.step]
    split
    · exact hb.rollback _ _ hw
    · exact hw
  | close i =>
    simp only [World.step, World.close]
    split
    · dsimp only
      split
      · exact hb.rollback _ _ hw
      · exact hw
    · exact hw

/-- What all operations keep holds after a run. -/
theorem World.run_keeps (hb : b.Keeps P) (es : List (Event ρ ω)) : ∀ {w : World μ}, P w.mgr →
    P (w.run b es).mgr := by
  induction es with
  | nil => exact fun hw => hw
  | cons e es ih => exact fun hw => ih (World.step_keeps hb hw e)

end Keeps

/-! ## The cache stays in order -/

section Cache

variable {c : Codec} {m : TxnMgr}

theorem cacheStep_txnRollback (c : Codec) (m : TxnMgr) (t : Txn) :
    CacheStep m.pager (txnRollback c m t).2.pager := by
  unfold txnRollback
  cases t.writable with
  | true => exact cacheStep_rollback c m.pager
  | false => exact .refl m.pager

theorem cacheStep_txnBegin (c : Codec) (m : TxnMgr) (iso : Isolation) (writable : Bool) :
    CacheStep m.pager (txnBegin c m iso writable).2.1.pager := by
  unfold txnBegin
  cases writable with
  | false => exact .refl m.pager
  | true =>
    have hbegin := cacheStep_begin m.pager
    simp only [if_true]
    split
    · rename_i p heq
      rw [heq] at hbegin
      exact hbegin
    · rename_i rc p _ heq
      rw [heq] at hbegin
      exact hbegin.trans (cacheStep_rollback c p)

theorem cacheStep_txnCommit (c : Codec) (m : TxnMgr) (t : Txn) :
    CacheStep m.pager (txnCommit c m t).2.pager := by
  unfold txnCommit
  cases t.writable with
  | true => exact (cacheStep_setHdr m.pager _).trans (cacheStep_commit c _)
  | false => exact .refl m.pager

theorem cacheStep_txnSavepoint (m : TxnMgr) (t : Txn) (name : Bytes) :
    CacheStep m.pager (txnSavepoint m t name).2.1.pager := by
  unfold txnSavepoint
  have hsp := cacheStep_savepoint m.pager
  split
  · split
    · rename_i heq
      rw [heq] at hsp
      exact hsp
    · rename_i heq
      rw [heq] at hsp
      exact hsp
  · exact .refl m.pager

theorem cacheStep_txnRelease (m : TxnMgr) (t : Txn) (name : Bytes) :
    CacheStep m.pager (txnRelease m t name).2.1.pager := by
  unfold txnRelease
  split
  · exact .refl m.pager
  · exact cacheStep_release m.pager _

theorem cacheStep_txnRollbackTo (m : TxnMgr) (t : Txn) (name : Bytes) :
    CacheStep m.pager (txnRollbackTo m t name).2.1.pager := by
  unfold txnRollbackTo
  split
  · exact .refl m.pager
  · exact cacheStep_rollbackTo m.pager _

theorem pagerBackend_keeps (c : Codec) : (pagerBackend c).Keeps (fun m => CacheOk m.pager) where
  begin := fun m writable h => (cacheStep_txnBegin c m .snapshot writable).2 h
  commit := fun m t h => (cacheStep_txnCommit c m t).2 h
  rollback := fun m t h => (cacheStep_txnRollback c m t).2 h
  savepoint := fun m t name h => (cacheStep_txnSavepoint m t name).2 h
  release := fun m t name h => (cacheStep_txnRelease m t name).2 h
  rollbackTo := fun m t name h => (cacheStep_txnRollbackTo m t name).2 h
  vacuum := fun m h => (cacheStep_vacuum c m.pager).2 h
  query := fun _ _ m h => (cacheStep_ops c _ m.pager).2 h
  run := fun op _ m h => (cacheStep_ops c op.1 m.pager).2 h

theorem cacheOk_newPager (file : File) (wal : Wal) (readonly : Bool) (hdr : DbHdr) :
    CacheOk (newPager file wal readonly hdr) :=
  ⟨nodup_nil, fun _ _ hpg => absurd hpg not_mem_nil⟩

theorem cacheOk_open (c : Codec) (file walfile : File) (readonly : Bool) :
    CacheOk (pagerOpen c file walfile readonly).2 := by
  unfold pagerOpen
  dsimp only
  split
  · split
    · exact cacheOk_newPager _ _ _ _
    · split
      · exact cacheOk_newPager _ _ _ _
      · exact ((cacheStep_begin _).trans (cacheStep_commit c _)).2 (cacheOk_newPager _ _ _ _)
  · exact cacheOk_newPager _ _ _ _

end Cache

/-! ## Pages left alone -/

/-- No dirty page is dropped or changed, and none is written to the log. -/
def Untouched (c : Codec) (p p' : Pager) : Prop :=
  ∀ g data, (p.store c).dirty g = some data →
    (p'.store c).dirty g = some data ∧ (p'.store c).base g = (p.store c).base g

section Untouched

variable {c : Codec} {p p' q : Pager} {m : TxnMgr}

theorem Untouched.refl (p : Pager) : Untouched c p p := fun _ _ h => ⟨h, rfl⟩

theorem Untouched.trans (h : Untouched c p p') (h' : Untouched c p' q) : Untouched c p q := by
  intro g data hg
  obtain ⟨h1, hb1⟩ := h g data hg
  obtain ⟨h2, hb2⟩ := h' g data h1
  exact ⟨h2, hb2.trans hb1⟩

theorem untouched_of_eq (hd : (p'.store c).dirty = (p.store c).dirty)
    (hb : (p'.store c).base = (p.store c).base) : Untouched c p p' := by
  intro g data hg
  rw [hd, hb]
  exact ⟨hg, rfl⟩

theorem untouched_of_store (h : p'.store c = p.store c) : Untouched c p p' :=
  untouched_of_eq (by rw [h]) (by rw [h])

theorem untouched_of_clean (h : ∀ g, (p.store c).dirty g = none) : Untouched c p p' := by
  intro g data hg
  rw [h g] at hg
  cases hg

/-- On a read-only database there is nothing to touch. -/
theorem CacheOk.dirty_of_readonly (h : CacheOk p) (hro : p.readonly = true) (g : UInt32) :
    (p.store c).dirty g = none := by
  cases hg : (p.store c).dirty g with
  | none => rfl
  | some data =>
    obtain ⟨pg, hl, hd, -⟩ := lookup_of_dirty hg
    rw [h.clean hro pg (Keyed.mem_of_find hl)] at hd
    cases hd

/-- A transaction that is refused is rolled back, which only a read-only database does. -/
theorem untouched_txnBegin (h : CacheOk m.pager) (iso : Isolation) (writable : Bool) :
    Untouched c m.pager (txnBegin c m iso writable).2.1.pager := by
  by_cases hro : m.pager.readonly = true
  · exact untouched_of_clean (h.dirty_of_readonly hro)
  · cases writable with
    | false => exact .refl m.pager
    | true =>
      have hbegin : pagerBegin m.pager = (.ok, { m.pager with inTxn := true }) := if_neg hro
      simp only [txnBegin, if_true, hbegin]
      exact untouched_of_store rfl

theorem untouched_txnSavepoint (m : TxnMgr) (t : Txn) (name : Bytes) :
    Untouched c m.pager (txnSavepoint m t name).2.1.pager := by
  have hsp : Untouched c m.pager (pagerSavepoint m.pager).2 := by
    unfold pagerSavepoint
    split
    · exact .refl m.pager
    · exact untouched_of_store rfl
  unfold txnSavepoint
  split
  · split
    · rename_i heq
      rw [heq] at hsp
      exact hsp
    · rename_i heq
      rw [heq] at hsp
      exact hsp
  · exact .refl m.pager

theorem untouched_txnRelease (m : TxnMgr) (t : Txn) (name : Bytes) :
    Untouched c m.pager (txnRelease m t name).2.1.pager := by
  unfold txnRelease pagerRelease
  split
  · exact .refl m.pager
  · dsimp only
    split
    · exact .refl m.pager
    · exact untouched_of_store rfl

/-- A return to a savepoint leaves the pages alone exactly when the pages it collects have the
images that the savepoint has. -/
theorem untouched_rollbackTo_iff (h : CacheOk p) {level : Nat} {sp : PagerSp}
    (hsp : p.sps[level]? = some sp) : Untouched c p (pagerRollbackTo p level).2 ↔
      ∀ g ∈ (collectDirty p).map Page.pgno, sp.image g = (p.store c).dirty g := by
  obtain ⟨p', hrun, -, -, hstore, -⟩ := rollbackTo_of_nodup c h.nodup hsp
  rw [hrun]
  dsimp only
  constructor
  · intro hsame g hg
    -- a collected page is dirty
    obtain ⟨pg, hpg, rfl⟩ := mem_map.mp hg
    obtain ⟨hmem, hd⟩ := mem_collectDirty hpg
    have hdirty := dirty_of_lookup (c := c) (Keyed.find_of_mem h.nodup hmem) hd
    have hkept := (hsame _ _ hdirty).1
    rw [hstore] at hkept
    simp only [Store.revertTo, if_pos hg] at hkept
    exact hkept.trans hdirty.symm
  · intro himg g data hg
    rw [hstore]
    refine ⟨?_, rfl⟩
    simp only [Store.revertTo]
    split
    · rename_i hmem
      rw [himg g hmem]
      exact hg
    · exact hg

end Untouched

/-! ## The condition -/

/-- A statement leaves dirty pages alone that are not its own: there are none; or it is not a
`COMMIT` or `ROLLBACK` of a transaction, it returns only to a savepoint that has the dirty pages
as they are, and it is not a `VACUUM` that is carried out. -/
def LeavesPages (c : Codec) (m : TxnMgr) (txn : Option Txn) :
    Stmt (List UInt32 × Status) (List PageOp × Status) → Prop
  | .commit | .rollback => txn = none ∨ ∀ g, (m.pager.store c).dirty g = none
  | .rollbackTo name =>
    ∀ t i level sp, txn = some t → findSp t name = some (i, level) →
      m.pager.sps[level]? = some sp →
      ∀ g ∈ (collectDirty m.pager).map Page.pgno, sp.image g = (m.pager.store c).dirty g
  | .vacuum =>
    txn.isSome = true ∨ m.pager.inTxn = true ∨ m.pager.hdr.dbSize ≤ 1 ∨
      m.pager.hdr.freelistCount = 0 ∨ ∀ g, (m.pager.store c).dirty g = none
  | _ => True

section Statements

variable {c : Codec} {s : Sess TxnMgr}

theorem untouched_execTxn (h : CacheOk s.mgr.pager)
    {st : Stmt (List UInt32 × Status) (List PageOp × Status)} (hst : LeavesPages c s.mgr s.txn st) :
    Untouched c s.mgr.pager (execTxn (pagerBackend c) s st).2.mgr.pager := by
  obtain ⟨m, writer, txn, err⟩ := s
  cases st with
  | begin =>
    cases txn with
    | some t => exact .refl _
    | none => exact untouched_txnBegin h .snapshot true
  | commit | rollback =>
    rcases hst with rfl | hclean
    · exact .refl _
    · exact untouched_of_clean hclean
  | savepoint name =>
    cases txn with
    | some t => exact untouched_txnSavepoint m t name
    | none =>
      have hbegin := untouched_txnBegin (c := c) h .snapshot true
      simp only [execTxn]
      split
      · rename_i m' t heq
        rw [show txnBegin c m .snapshot true = (.ok, m', some t) from heq] at hbegin
        exact hbegin.trans (untouched_txnSavepoint m' t name)
      · rename_i rc m' t _ heq
        rw [show txnBegin c m .snapshot true = (rc, m', t) from heq] at hbegin
        exact hbegin
  | release name =>
    cases txn with
    | some t => exact untouched_txnRelease m t name
    | none => exact .refl _
  | rollbackTo name =>
    cases txn with
    | none => exact .refl _
    | some t =>
      change Untouched c m.pager (txnRollbackTo m t name).2.1.pager
      unfold txnRollbackTo
      split
      · exact .refl _
      · rename_i i level hfind
        cases hsp : m.pager.sps[level]? with
        | none =>
          simp only [pagerRollbackTo, hsp]
          exact .refl _
        | some sp => exact (untouched_rollbackTo_iff h hsp).mpr (hst t i level sp rfl hfind hsp)
  | explain | vacuum | select q streams | write op => exact .refl _

theorem untouched_execSelect (h : CacheOk s.mgr.pager) (q : List UInt32 × Status) (streams : Bool) :
    Untouched c s.mgr.pager (execSelect (pagerBackend c) s q streams).2.1.mgr.pager := by
  have hquery : ∀ (m : TxnMgr) (t : Txn), CacheOk m.pager →
      Untouched c m.pager ((pagerBackend c).query q t m).2.pager :=
    fun m t hm => untouched_of_store (hm.store_gets c q.1)
  unfold execSelect
  split
  · rename_i t _
    exact hquery s.mgr t h
  · -- the pager is not told of a read-only transaction
    obtain ⟨m, t, hbegin, hpager, hro⟩ : ∃ m t, (pagerBackend c).begin s.mgr false = (.ok, m, some t) ∧
        m.pager = s.mgr.pager ∧ t.writable = false := ⟨_, _, rfl, rfl, rfl⟩
    have hq := hquery m t (by rw [hpager]; exact h)
    rw [hpager] at hq
    simp only [hbegin]
    split
    · exact hq
    · change Untouched c s.mgr.pager (txnRollback c _ t).2.pager
      simp only [txnRollback, hro, Bool.false_eq_true, if_false]
      exact hq

/-- A write of a connection that does not hold the slot is refused. -/
theorem execWrite_of_taken {b : Backend μ ρ ω} {s : Sess μ} (h0 : s.writer ≠ 0)
    (hown : s.txn.map Txn.id ≠ some s.writer) (hnext : s.writer ≠ b.peekNext s.mgr) (op : ω) :
    (execWrite b s op).2.mgr = s.mgr := by
  have hclaim : s.writer ≠ writeClaim b s.mgr s.txn := by
    cases htxn : s.txn with
    | none => exact hnext
    | some t =>
      intro heq
      rw [htxn] at hown
      exact hown (congrArg some heq.symm)
  obtain ⟨rc, hacq, hrc⟩ := acquireWriter_refused (not_or.mpr ⟨h0, hclaim⟩)
  unfold execWrite
  rw [hacq]
  cases rc <;> first | rfl | exact absurd rfl hrc

theorem untouched_vacuum {m : TxnMgr} (h : CacheOk m.pager)
    (hst : m.pager.inTxn = true ∨ m.pager.hdr.dbSize ≤ 1 ∨ m.pager.hdr.freelistCount = 0 ∨
      ∀ g, (m.pager.store c).dirty g = none) : Untouched c m.pager (pagerVacuum c m.pager).2 := by
  by_cases hro : m.pager.readonly = true
  · exact untouched_of_clean (h.dirty_of_readonly hro)
  by_cases htxn : m.pager.inTxn = true
  · have hrun : pagerVacuum c m.pager = (.misuse, m.pager) := by simp [pagerVacuum, hro, htxn]
    rw [hrun]
    exact .refl _
  by_cases hfree : m.pager.hdr.dbSize ≤ 1 ∨ m.pager.hdr.freelistCount = 0
  · have hrun : pagerVacuum c m.pager = (.ok, m.pager) := by
      simp only [pagerVacuum, hro, htxn, hfree, if_true, if_false, Bool.false_eq_true]
    rw [hrun]
    exact .refl _
  · rcases hst with h1 | h1 | h1 | h1
    · exact absurd h1 htxn
    · exact absurd (Or.inl h1) hfree
    · exact absurd (Or.inr h1) hfree
    · exact untouched_of_clean h1

/-- **A statement of a connection that does not hold the slot** leaves the dirty pages alone,
under the condition. -/
theorem untouched_stmtExecute (h : CacheOk s.mgr.pager) (h0 : s.writer ≠ 0)
    (hown : s.txn.map Txn.id ≠ some s.writer) (hnext : s.writer ≠ s.mgr.next)
    {st : Stmt (List UInt32 × Status) (List PageOp × Status)} (hst : LeavesPages c s.mgr s.txn st) :
    Untouched c s.mgr.pager (stmtExecute (pagerBackend c) s st).2.1.mgr.pager := by
  cases st with
  | explain => exact .refl _
  | vacuum =>
    simp only [stmtExecute]
    split
    · exact .refl _
    · rename_i hnone
      exact untouched_vacuum h (hst.resolve_left hnone)
  | select q streams => exact untouched_execSelect h q streams
  | write op =>
    have hrefused := execWrite_of_taken (b := pagerBackend c) h0 hown hnext op
    simp only [stmtExecute]
    rw [hrefused]
    exact .refl _
  | begin | commit | rollback | savepoint name | release name | rollbackTo name =>
    exact untouched_execTxn h hst

end Statements

/-! ## Along a run -/

/-- The transaction of a connection holds the writer slot, and it is not that of `i`. -/
def Foreign (w : World μ) (i : Nat) : Prop :=
  (∃ j, w.idAt j = some w.writer) ∧ w.idAt i ≠ some w.writer

/-- No statement of a run touches a dirty page while the transaction of another connection holds
the writer slot. -/
def WriterIsolated (c : Codec) (w : World TxnMgr)
    (es : List (Event (List UInt32 × Status) (List PageOp × Status))) : Prop :=
  ∀ k i st, es[k]? = some (.exec i st) → Foreign (w.run (pagerBackend c) (es.take k)) i →
    Untouched c (w.run (pagerBackend c) (es.take k)).mgr.pager
      ((w.run (pagerBackend c) (es.take k)).exec (pagerBackend c) i st).2.mgr.pager

/-- **Writer isolation holds of every run** in which each statement of a connection that does not
hold the slot leaves the pages of the one that does. The disk may fail at any time. -/
theorem writerIsolated_of_leavesPages (c : Codec) (file walfile : File) (readonly : Bool)
    (p : Pager) (hopen : pagerOpen c file walfile readonly = (.ok, p))
    (es : List (Event (List UInt32 × Status) (List PageOp × Status)))
    (hids : p.hdr.maxTxnid.toNat + 1 + es.length < 2 ^ 64)
    (hsafe : ∀ k i st, es[k]? = some (.exec i st) →
      ∀ w, w = (World.new (txnmgrOpen p)).run (pagerBackend c) (es.take k) → Foreign w i →
      ∀ txn err, w.conns[i]? = some ⟨true, txn, err⟩ → LeavesPages c w.mgr txn st) :
    WriterIsolated c (World.new (txnmgrOpen p)) es := by
  intro k i st hk hforeign
  obtain ⟨hinv, -⟩ := worldInv_new c (p := p) (by omega)
  have hcache : CacheOk p := by
    have := cacheOk_open c file walfile readonly
    rwa [hopen] at this
  -- what holds in the state before the statement
  have hroom : (p.hdr.maxTxnid + 1).toNat + (es.take k).length < 2 ^ 64 := by
    rw [uint64_toNat_succ (by omega), length_take]
    omega
  have hw := hinv.runs (pagerBackend_ids c) (es.take k) hroom
  have hok := World.run_keeps (pagerBackend_keeps c) (es.take k) (w := World.new (txnmgrOpen p)) hcache
  have hleaves := hsafe k i st hk _ rfl hforeign
  generalize (World.new (txnmgrOpen p)).run (pagerBackend c) (es.take k) = w at *
  by_cases hi : ∃ txn err, w.conns[i]? = some ⟨true, txn, err⟩
  swap
  · rw [World.exec_of_not_open fun txn err h => hi ⟨txn, err, h⟩]
    exact .refl _
  obtain ⟨txn, err, hi⟩ := hi
  obtain ⟨⟨j, hj⟩, hown⟩ := hforeign
  have h0 : w.writer ≠ 0 := by
    intro hz
    have hpos := (hw.ids j _ hj).1
    rw [hz] at hpos
    simp at hpos
  rw [idAt_of_conn hi] at hown
  obtain ⟨rc, s', own, hrun, hexec⟩ := World.exec_of_open (b := pagerBackend c) hi st
  have hstmt := untouched_stmtExecute (s := ⟨w.mgr, w.writer, txn, err⟩) hok h0 hown hw.writer_ne
    (hleaves txn err hi)
  rw [hrun] at hstmt
  rw [hexec]
  exact hstmt

/-- The file of a database of one page. -/
def smallDb : Bytes := hdrSerialize (newHdr 512) (zeros 512)

def smallPager : Pager := (pagerOpen Codec.identity ⟨smallDb, []⟩ ⟨[], []⟩ false).2

theorem smallPager_open :
    pagerOpen Codec.identity ⟨smallDb, []⟩ ⟨[], []⟩ false = (.ok, smallPager) := by
  have hok : (pagerOpen Codec.identity ⟨smallDb, []⟩ ⟨[], []⟩ false).1 = .ok := by decide +kernel
  unfold smallPager
  rw [← hok]

/-- Connection 0 has begun and dirtied page 2, which holds the slot; connection 1 has begun. -/
def isolationRun : List (Event (List UInt32 × Status) (List PageOp × Status)) :=
  [.connect, .exec 0 .begin, .exec 1 .begin,
    .exec 0 (.write ([.alloc, .write 2 ones], .ok))]

/-- A savepoint, a query and a write of connection 1 leave page 2 alone. -/
theorem writerIsolated_savepoint : WriterIsolated Codec.identity (World.new (txnmgrOpen smallPager))
    (isolationRun ++ [.exec 1 (.savepoint [97]), .exec 1 (.select ([1], .ok) false),
      .exec 1 (.write ([.free 2], .ok))]) := by
  have hmax : smallPager.hdr.maxTxnid = 0 := by decide +kernel
  refine writerIsolated_of_leavesPages _ _ _ _ _ smallPager_open _ (by rw [hmax]; decide) ?_
  intro k i st hk w _ _ txn err _
  have hmem := mem_of_getElem? hk
  simp only [isolationRun, cons_append, nil_append, mem_cons, not_mem_nil,
    or_false] at hmem
  rcases hmem with h | h | h | h | h | h | h <;> cases h <;> trivial

/-- Connection 0 holds the slot and its page 2 is dirty. The `ROLLBACK` of connection 1 drops the
page, and its `COMMIT` writes it to the log. -/
theorem writerIsolated_broken :
    ∃ w, w = (World.new (txnmgrOpen smallPager)).run (pagerBackend Codec.identity) isolationRun ∧
      w.writer = 1 ∧ w.idAt 0 = some 1 ∧ w.idAt 1 = some 2 ∧
      (w.mgr.pager.store Codec.identity).dirty 2 = some ones ∧
      (w.mgr.pager.store Codec.identity).base 2 = zeros 512 ∧
      ((w.exec (pagerBackend Codec.identity) 1 .rollback).2.mgr.pager.store Codec.identity).dirty 2
        = none ∧
      ((w.exec (pagerBackend Codec.identity) 1 .commit).2.mgr.pager.store Codec.identity).base 2
        = ones := by
  refine ⟨_, rfl, ?_, ?_, ?_, ?_, ?_, ?_, ?_⟩ <;> decide +kernel

end Tdb
