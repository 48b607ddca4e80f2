import TransactionDB.Engine.Chains
import TransactionDB.Sql.WriterSlot
import TransactionDB.Sql.PagedStore
import TransactionDB.Sql.StatementCalls

/-!
# TransactionDB — what a failed statement leaves behind

`INSERT`, `UPDATE`, `DELETE` and `TRUNCATE` store their rows one after the other. Nothing takes back
what was stored before an error: inside a transaction it stays, and the transaction sees it. Only a
statement that runs in a transaction of its own is rolled back with it.

`storeCalls` is what the calls of a statement do to the version chains of all tables
(`exec_rep`). `failed_statement_iff` says for every statement, inside a transaction or not, when the
next query of the connection reads the same rows after an error.
-/

namespace Tdb.Exec

open Versions List

/-! ## Calls on version chains -/

/-- The chains of all tables. -/
abbrev DbChains := Nat → Chains UInt64 UInt64 Bytes

/-- A call as a change of its row. -/
def Call.change (call : Call) : Versions.Change UInt64 Bytes :=
  match call.kind with
  | .insert => .insert call.rowid (recordEncode call.row)
  | .update => .update call.rowid (recordEncode call.row)
  | .remove => .remove call.rowid

def storeCall (txn : UInt64) (cs : DbChains) (call : Call) : DbChains :=
  Function.update cs call.table (call.change.store txn (cs call.table))

/-- The chains after these calls of a transaction. -/
def storeCalls (txn : UInt64) (cs : DbChains) (calls : List Call) : DbChains :=
  calls.foldl (storeCall txn) cs

/-- The tables keep these chains. -/
def DbRep (db : Tables) (cs : DbChains) : Prop := ∀ i, TableRep (db.data i) (cs i)

section Chains

variable {db : Tables} {cs : DbChains} {txn : UInt64} {w : Work} {call : Call}

theorem maxRowid_insert_le (m : RowMap) (v : Bytes) :
    (maxRowid (m.insert (maxRowid m + 1) v)).toNat ≤ (maxRowid m).toNat + 1 := by
  have hsucc : (maxRowid m + 1).toNat ≤ (maxRowid m).toNat + 1 := by
    rw [UInt64.toNat_add]
    exact Nat.mod_le _ _
  rcases maxRowid_key (m.insert (maxRowid m + 1) v) with h0 | ⟨u, hu⟩
  · rw [h0]
    exact Nat.zero_le _
  · rw [getElem?_insert_row] at hu
    split at hu
    · rename_i heq
      rw [heq]
      exact hsucc
    · exact (UInt64.le_iff_toNat_le.mp (le_maxRowid hu)).trans (Nat.le_succ _)

/-- A call makes at most one new version id. -/
theorem maxRowid_exec_le (txn : UInt64) (db : Tables) (call : Call) : (maxRowid (call.exec txn db).2.hist).toNat ≤
    (maxRowid (db.data call.table).hist).toNat + 1 := by
  unfold Call.exec
  cases call.kind with
  | insert => exact Nat.le_succ _
  | update =>
    dsimp only
    unfold engUpdate
    split
    · exact Nat.le_succ _
    · exact maxRowid_insert_le _ _
  | remove =>
    dsimp only
    unfold engRemove
    split <;> exact Nat.le_succ _

/-- A call that fails leaves its table as it is. -/
theorem exec_failed (h : (call.exec txn db).1 ≠ .ok) : (call.exec txn db).2 = db.data call.table := by
  unfold Call.exec at h ⊢
  cases hkind : call.kind with
  | insert =>
    rw [hkind] at h
    exact absurd rfl h
  | update =>
    rw [hkind] at h
    dsimp only at h ⊢
    unfold engUpdate at h ⊢
    split
    · rfl
    · rename_i old hold
      rw [hold] at h
      exact absurd rfl h
  | remove =>
    rw [hkind] at h
    dsimp only at h ⊢
    unfold engRemove at h ⊢
    split
    · rfl
    · rename_i old hold
      rw [hold] at h
      exact absurd rfl h

theorem tableRep_exec (h : TableRep (db.data call.table) (cs call.table)) (htxn : txn ≠ 0)
    (hroom : (maxRowid (db.data call.table).hist).toNat + 1 < 2 ^ 64) :
    TableRep (call.exec txn db).2 (call.change.store txn (cs call.table)) := by
  unfold Call.exec Call.change
  cases call.kind with
  | insert => exact h.insert txn call.rowid (recordEncode call.row)
  | update => exact (h.update htxn hroom call.rowid (recordEncode call.row)).2
  | remove => exact (h.remove htxn call.rowid).2

theorem dbRep_storeCall (h : DbRep w.db cs) (htxn : txn ≠ 0) (hlt : call.table < w.db.length)
    (hroom : (maxRowid (w.db.data call.table).hist).toNat + 1 < 2 ^ 64) :
    DbRep (w.call txn call).work.db (storeCall txn cs call) := by
  intro i
  rw [Work.call_db, Tables.data_setData]
  unfold storeCall
  by_cases hi : i = call.table
  · rw [hi, if_pos ⟨rfl, hlt⟩, Function.update_self]
    exact tableRep_exec (h call.table) htxn hroom
  · rw [if_neg (fun hc => hi hc.1.symm), Function.update_of_ne hi]
    exact h i

/-- **A statement changes the chains by its calls**, as long as version ids do not run out. -/
theorem exec_rep {c : StmtCtx} (st : RowStmt) (hrep : DbRep db cs) (htxn : c.txn.id ≠ 0)
    (hroom : ∀ i, (maxRowid (db.data i).hist).toNat + (st.exec c db).work.stored.length < 2 ^ 64) :
    DbRep (st.exec c db).work.db (storeCalls c.txn.id cs (st.exec c db).work.stored) := by
  have hrun := (st.exec_runs c db).keepsDefns.logs
  refine (hrun.invariant (I := fun w => DbRep w.db (storeCalls c.txn.id cs w.stored) ∧
    ∀ i, (maxRowid (w.db.data i).hist).toNat ≤ (maxRowid (db.data i).hist).toNat + w.stored.length)
    ?_ ?_ ⟨hrep, fun i => Nat.le_refl _⟩).1
  · intro w w' hdb hstored h
    rw [hdb, hstored]
    exact h
  · rintro w call ⟨⟨horigin, hs⟩, hlog⟩ ⟨hw, hmax⟩
    have hlt : call.table < w.db.length := by
      obtain ⟨j, hj, hmem⟩ := horigin.part hs
      rw [hs.length]
      exact Tables.parts_lt (Tables.find_lt hj) hmem
    by_cases hrc : (w.call c.txn.id call).rc = .ok
    · have hlen := (hlog hrc).length_le
      rw [length_append, length_singleton] at hlen
      have hr := hroom call.table
      have hm := hmax call.table
      rw [Work.call_stored, if_pos hrc]
      refine ⟨?_, fun i => ?_⟩
      · unfold storeCalls
        rw [foldl_append]
        exact dbRep_storeCall hw htxn hlt (by omega)
      · rw [length_append, length_singleton, Work.call_db, Tables.data_setData]
        have hi := hmax i
        split
        · rename_i heq
          have hle := maxRowid_exec_le c.txn.id w.db call
          rw [heq.1] at hle
          omega
        · omega
    · rw [Work.call_stored, if_neg hrc, Work.call_db, exec_failed hrc]
      have hsame : ∀ i, (w.db.setData call.table (w.db.data call.table)).data i = w.db.data i := by
        intro i
        rw [Tables.data_setData]
        split
        · rename_i heq
          rw [heq.1]
        · rfl
      refine ⟨fun i => ?_, fun i => ?_⟩
      · rw [hsame]
        exact hw i
      · rw [hsame]
        exact hmax i

end Chains

/-- A reader that sees the ids in `S` notices nothing of these calls. -/
def Unseen (S : UInt64 → Bool) (txn : UInt64) (cs : DbChains) (calls : List Call) : Prop :=
  ∀ i r, lookup S (storeCalls txn cs calls i r) = lookup S (cs i r)

/-! ## Connections -/

abbrev TablesDb := Paged Tables Unit

/-- A statement as a program on the tables. -/
def rowRun (env : SqlEnv) (deny : Bytes → Bytes → Option SqlMsg) (st : RowStmt) : PagedRun Tables Unit :=
  fun t m db _ =>
    let o := st.exec ⟨env, m, t, deny⟩ db
    (o.rc, if o.work.stored = [] then none else some o.work.db, ())

def rowBackend (c : Codec) (vac : Pager → PagesFate) (env : SqlEnv)
    (deny : Bytes → Bytes → Option SqlMsg) : Backend TablesDb Unit RowStmt :=
  pagedBackend c vac (fun _ _ _ _ _ => .ok) (rowRun env deny)

/-- The rows of table `i` that the next query of the connection reads: in the transaction that is
open, or in a new one. -/
def nextRows (c : Codec) (s : Sess TablesDb) (i : Nat) : Status × List (UInt64 × Bytes) :=
  match s.txn with
  | some t => engScan s.mgr.mgr t (s.mgr.cur.data i) 0
  | none =>
    match txnBegin c s.mgr.mgr .snapshot false with
    | (.ok, m, some t) => engScan m t (s.mgr.cur.data i) 0
    | (rc, _, _) => (rc, [])

/-- The ids that have committed. -/
def committedSees (m : TxnMgr) (x : UInt64) : Bool := decide (txnmgrState m x = .committed)

/-- All ids in the chains are below `n`. -/
def IdsBelow (n : UInt64) (cs : DbChains) : Prop :=
  ∀ i r, ∀ v ∈ cs i r, v.created < n ∧ ∀ d, v.deleted = some d → d < n

/-- A connection on tables with these chains, `cs0` being those that are committed. -/
structure SessRep (s : Sess TablesDb) (live : List LiveTxn) (com : UInt64 → Prop)
    (cs cs0 : DbChains) : Prop where
  mgr : MgrInv s.mgr.mgr live com
  txn : ∀ t, s.txn = some t → ∃ l ∈ live, l.txn = t
  cur : DbRep s.mgr.cur cs
  stable : DbRep s.mgr.stable cs0
  ids : IdsBelow s.mgr.mgr.next cs
  ids0 : IdsBelow s.mgr.mgr.next cs0

/-- **When a failed statement leaves the rows as they were.** It did not get the writer slot; or,
inside a transaction, what it has stored before the error cannot be seen; or, in a transaction of
its own, its rollback drops nothing that could be seen, or its commit failed and what it has stored
cannot be seen. -/
def LeavesRows (c : Codec) (env : SqlEnv) (deny : Bytes → Bytes → Option SqlMsg) (s : Sess TablesDb)
    (cs cs0 : DbChains) (st : RowStmt) : Prop :=
  (acquireWriter s.writer ((s.txn.map Txn.id).getD s.mgr.mgr.next)).1 = .ok →
  match s.txn with
  | some t =>
    Unseen (txnSees s.mgr.mgr t) t.id cs (st.exec ⟨env, s.mgr.mgr, t, deny⟩ s.mgr.cur).work.stored
  | none =>
    match txnBegin c s.mgr.mgr .snapshot true with
    | (.ok, m, some t) =>
      let o := st.exec ⟨env, m, t, deny⟩ s.mgr.cur
      if o.rc = .ok then Unseen (committedSees s.mgr.mgr) t.id cs o.work.stored
      else ∀ i r, lookup (committedSees s.mgr.mgr) (cs0 i r) = lookup (committedSees s.mgr.mgr) (cs i r)
    | _ => True

/-- The manager and the transaction that a statement of the connection runs with. -/
inductive RunsWith (c : Codec) (s : Sess TablesDb) : TxnMgr → Txn → Prop
  | own (t : Txn) (htxn : s.txn = some t) : RunsWith c s s.mgr.mgr t
  | new (m : TxnMgr) (t : Txn) (htxn : s.txn = none)
      (hbegin : txnBegin c s.mgr.mgr .snapshot true = (.ok, m, some t)) : RunsWith c s m t

section Readers

variable {c : Codec} {m m' : TxnMgr} {live live' : List LiveTxn} {com : UInt64 → Prop}

/-- A transaction that begins now sees what has committed. -/
theorem newTxn_sees (h : MgrInv m live com) (hroom : m.next.toNat + 1 < 2 ^ 64) {writable : Bool} {t : Txn}
    (hbegin : txnBegin c m .snapshot writable = (.ok, m', some t)) {x : UInt64} (hx : x < m.next) :
    txnSees m' t x = committedSees m x := by
  have hinv := h.begin hroom hbegin
  have hl : (⟨t, com⟩ : LiveTxn) ∈ live ++ [⟨t, com⟩] := mem_append_right _ (mem_singleton_self _)
  have hsnap := hinv.snaps _ hl
  have hid : t.id = m.next := (txnBegin_ok_inv hbegin).1
  have hne : x ≠ t.snap.self := by
    rw [hsnap.self, hid]
    exact fun heq => UInt64.lt_irrefl _ (heq ▸ hx)
  unfold txnSees committedSees
  rw [Bool.eq_iff_iff, decide_eq_true_eq, xidVisible_iff hne, ← hinv.com_iff, ← h.com_iff]
  exact (hsnap.before x).symm

theorem txnBegin_some {writable : Bool} {rc : Status} {t : Txn}
    (h : txnBegin c m .snapshot writable = (rc, m', some t)) : rc = .ok := by
  unfold txnBegin at h
  dsimp only at h
  split at h
  · split at h <;> cases h
    rfl
  · cases h
    rfl

theorem begin_read (m : TxnMgr) : ∃ m' t, txnBegin c m .snapshot false = (.ok, m', some t) :=
  ⟨_, _, rfl⟩

/-- Two connections without a transaction read the same if committed transactions have left the
same. -/
theorem nextRows_eq_iff {s s' : Sess TablesDb} {cs cs' : DbChains} (hm : MgrInv s.mgr.mgr live com)
    (hm' : MgrInv s'.mgr.mgr live' com) (htxn : s.txn = none) (htxn' : s'.txn = none)
    (hroom : s.mgr.mgr.next.toNat + 1 < 2 ^ 64) (hroom' : s'.mgr.mgr.next.toNat + 1 < 2 ^ 64)
    (hrep : DbRep s.mgr.cur cs) (hrep' : DbRep s'.mgr.cur cs') (hids : IdsBelow s.mgr.mgr.next cs)
    (hids' : IdsBelow s'.mgr.mgr.next cs') (i : Nat) :
    nextRows c s' i = nextRows c s i ↔ ∀ r, lookup (committedSees s.mgr.mgr) (cs' i r) =
      lookup (committedSees s.mgr.mgr) (cs i r) := by
  obtain ⟨m1, t1, hbegin⟩ := begin_read (c := c) s.mgr.mgr
  obtain ⟨m2, t2, hbegin'⟩ := begin_read (c := c) s'.mgr.mgr
  have hsame : ∀ x, committedSees s'.mgr.mgr x = committedSees s.mgr.mgr x := by
    intro x
    unfold committedSees
    rw [Bool.eq_iff_iff, decide_eq_true_eq, decide_eq_true_eq, ← hm.com_iff, ← hm'.com_iff]
  have hsees : ∀ r, lookup (txnSees m1 t1) (cs i r) = lookup (committedSees s.mgr.mgr) (cs i r) :=
    fun r => Versions.lookup_congr fun v hv =>
      ⟨newTxn_sees hm hroom hbegin (hids i r v hv).1,
        fun d hd => newTxn_sees hm hroom hbegin ((hids i r v hv).2 d hd)⟩
  have hsees' : ∀ r, lookup (txnSees m2 t2) (cs' i r) = lookup (committedSees s.mgr.mgr) (cs' i r) :=
    fun r => Versions.lookup_congr fun v hv =>
      ⟨(newTxn_sees hm' hroom' hbegin' (hids' i r v hv).1).trans (hsame _),
        fun d hd => (newTxn_sees hm' hroom' hbegin' ((hids' i r v hv).2 d hd)).trans (hsame _)⟩
  have hvis := visBy_scan m1 t1 0
  have hvis' := visBy_scan m2 t2 0
  unfold nextRows
  rw [htxn, htxn', hbegin, hbegin']
  unfold engScan
  rw [(hrep' i).scan_eq_iff hvis' (hrep i) hvis]
  exact forall_congr' fun r => by
    rw [← hsees r, ← hsees' r]
    rfl

end Readers

theorem idsBelow_storeCalls {n txn : UInt64} (htxn : txn < n) : ∀ {calls : List Call} {cs : DbChains},
    IdsBelow n cs → IdsBelow n (storeCalls txn cs calls) := by
  intro calls
  induction calls with
  | nil => exact fun h => h
  | cons call calls ih =>
    intro cs h
    refine ih fun i r v hv => ?_
    unfold storeCall Change.store at hv
    by_cases hi : i = call.table
    · rw [hi, Function.update_self] at hv
      by_cases hr : r = call.change.key
      · rw [hr, Function.update_self] at hv
        exact Change.known_chain (K := fun x => x < n) htxn (h call.table _) call.change v hv
      · rw [Function.update_of_ne hr] at hv
        exact h call.table r v hv
    · rw [Function.update_of_ne hi] at hv
      exact h i r v hv

/-! ## One statement -/

section Write

variable {μ ρ ω : Type} {b : Backend μ ρ ω} {s : Sess μ} {m : μ} {t : Txn}

theorem execWrite_refused (op : ω)
    (hbusy : ¬ (s.writer = 0 ∨ s.writer = writeClaim b s.mgr s.txn)) :
    (execWrite b s op).2 = { s with err := some .locked } := by
  obtain ⟨rc, hacq, hrc⟩ := acquireWriter_refused hbusy
  unfold execWrite
  rw [hacq]
  cases rc <;> first | rfl | exact absurd rfl hrc

theorem execWrite_own (op : ω) (htxn : s.txn = some t) (hfree : s.writer = 0 ∨ s.writer = t.id) :
    execWrite b s op = ((b.run op t s.mgr).1, { s with mgr := (b.run op t s.mgr).2, writer := t.id }) := by
  have hacq : acquireWriter s.writer t.id = (.ok, t.id) := acquireWriter_of_free hfree
  simp only [execWrite, writeClaim, htxn, hacq]

section

variable (op : ω) (htxn : s.txn = none) (hfree : s.writer = 0 ∨ s.writer = b.peekNext s.mgr)

include op htxn hfree

theorem execWrite_new (hbegin : b.begin s.mgr true = (.ok, m, some t)) :
    let r := b.run op t m
    let e := if r.1 = .ok then b.commit r.2 t else (r.1, (b.rollback r.2 t).2)
    execWrite b s op = (e.1, { s with mgr := e.2, writer := if t.id ≠ 0 then 0 else t.id }) := by
  have hacq : acquireWriter s.writer (b.peekNext s.mgr) = (.ok, b.peekNext s.mgr) :=
    acquireWriter_of_free hfree
  simp only [execWrite, writeClaim, htxn, hacq, hbegin, releaseWriter, if_pos]

theorem execWrite_noTxn {rc : Status} (hbegin : b.begin s.mgr true = (rc, m, none)) :
    ∃ writer, execWrite b s op = (rc, { s with mgr := m, writer := writer }) := by
  have hacq : acquireWriter s.writer (b.peekNext s.mgr) = (.ok, b.peekNext s.mgr) :=
    acquireWriter_of_free hfree
  refine ⟨releaseWriter (b.peekNext s.mgr) (b.peekNext m), ?_⟩
  simp only [execWrite, writeClaim, htxn, hacq, hbegin]

end

end Write

section Statement

variable {c : Codec} {vac : Pager → PagesFate} {env : SqlEnv} {deny : Bytes → Bytes → Option SqlMsg}
  {s : Sess TablesDb} {live : List LiveTxn} {com : UInt64 → Prop} {cs cs0 : DbChains} {st : RowStmt}

/-- A statement that has stored something leaves dirty pages. -/
theorem run_cur (c : Codec) (vac : Pager → PagesFate) (env : SqlEnv)
    (deny : Bytes → Bytes → Option SqlMsg) (st : RowStmt) (m : TablesDb) (t : Txn) :
    ((rowBackend c vac env deny).run st t m).2.cur =
    if (st.exec ⟨env, m.mgr, t, deny⟩ m.cur).work.stored = [] then m.cur
    else (st.exec ⟨env, m.mgr, t, deny⟩ m.cur).work.db := by
  change (Option.orElse (if (st.exec ⟨env, m.mgr, t, deny⟩ m.cur).work.stored = [] then none
    else some (st.exec ⟨env, m.mgr, t, deny⟩ m.cur).work.db) fun _ => m.page).getD m.stable = _
  split <;> rfl

/-- The tables after the run of a statement, whatever it returned. -/
theorem run_rep (c : Codec) (vac : Pager → PagesFate) {m : TablesDb} {t : Txn} (hrep : DbRep m.cur cs)
    (htxn : t.id ≠ 0) (hroom : ∀ i, (maxRowid (m.cur.data i).hist).toNat +
      (st.exec ⟨env, m.mgr, t, deny⟩ m.cur).work.stored.length < 2 ^ 64) :
    DbRep ((rowBackend c vac env deny).run st t m).2.cur
      (storeCalls t.id cs (st.exec ⟨env, m.mgr, t, deny⟩ m.cur).work.stored) := by
  have hexec := exec_rep (c := ⟨env, m.mgr, t, deny⟩) st hrep htxn hroom
  rw [run_cur]
  split
  · rename_i hnone
    rw [hnone]
    exact hrep
  · exact hexec

/-- Inside a transaction. -/
theorem failed_in_txn {t : Txn} (h : SessRep s live com cs cs0) (htxn : s.txn = some t)
    (hroom : ∀ i, (maxRowid (s.mgr.cur.data i).hist).toNat +
      (st.exec ⟨env, s.mgr.mgr, t, deny⟩ s.mgr.cur).work.stored.length < 2 ^ 64) :
    (∀ i, nextRows c { s with mgr := ((rowBackend c vac env deny).run st t s.mgr).2 } i = nextRows c s i) ↔
      Unseen (txnSees s.mgr.mgr t) t.id cs
        (st.exec ⟨env, s.mgr.mgr, t, deny⟩ s.mgr.cur).work.stored := by
  obtain ⟨l, hl, hlt⟩ := h.txn t htxn
  have hid : t.id ≠ 0 := hlt ▸ h.mgr.id_ne_zero hl
  have hrep := run_rep c vac h.cur hid hroom
  have hvis := visBy_scan s.mgr.mgr t 0
  unfold nextRows Unseen
  dsimp only
  rw [htxn]
  unfold engScan
  exact forall_congr' fun i => (hrep i).scan_eq_iff hvis (h.cur i) hvis

theorem idsBelow_mono {n n' : UInt64} (hle : n ≤ n') (h : IdsBelow n cs) : IdsBelow n' cs :=
  fun i r v hv => ⟨UInt64.lt_of_lt_of_le (h i r v hv).1 hle,
    fun d hd => UInt64.lt_of_lt_of_le ((h i r v hv).2 d hd) hle⟩

section

variable {m : TxnMgr} {t : Txn} {writer : UInt64} (h : SessRep s live com cs cs0) (htxn : s.txn = none)
  (hnext : s.mgr.mgr.next.toNat + 2 < 2 ^ 64)
  (hbegin : txnBegin c s.mgr.mgr .snapshot true = (.ok, m, some t))

include h htxn hnext hbegin

/-- In a transaction of its own, when the run fails. -/
theorem failed_run :
    (∀ i, nextRows c { s with
        mgr := ((rowBackend c vac env deny).rollback
          ((rowBackend c vac env deny).run st t { s.mgr with mgr := m }).2 t).2
        writer := writer } i = nextRows c s i) ↔
      ∀ i r, lookup (committedSees s.mgr.mgr) (cs0 i r) = lookup (committedSees s.mgr.mgr) (cs i r) := by
  obtain ⟨hid, hwritable, -, hnext', -⟩ := txnBegin_ok_inv hbegin
  have hlt : s.mgr.mgr.next < s.mgr.mgr.next + 1 := lt_next_succ (by omega)
  have hend : MgrInv (txnRollback c m t).2 live com := by
    have hinv := (h.mgr.begin (by omega) hbegin).rollback (c := c) (l := ⟨t, com⟩) rfl
    rwa [append_nil] at hinv
  have hmgr : (txnRollback c m t).2.next = s.mgr.mgr.next + 1 := hnext'
  have hroom : (s.mgr.mgr.next + 1).toNat + 1 < 2 ^ 64 := by
    rw [UInt64.toNat_add]
    simp
    omega
  -- the pages are dropped, so what is committed is read
  have hcur : ((rowBackend c vac env deny).rollback
      ((rowBackend c vac env deny).run st t { s.mgr with mgr := m }).2 t).2.cur = s.mgr.stable := by
    change (Paged.settle _ (if t.writable then .dropped else .kept)).cur = _
    rw [hwritable]
    rfl
  have hmgr' : ((rowBackend c vac env deny).rollback
      ((rowBackend c vac env deny).run st t { s.mgr with mgr := m }).2 t).2.mgr =
        (txnRollback c m t).2 := Paged.settle_mgr _ _
  rw [← hmgr'] at hend
  refine forall_congr' fun i => nextRows_eq_iff h.mgr hend htxn (by exact htxn) (by omega) ?_ h.cur ?_ h.ids ?_ i
  · rw [hmgr', hmgr]
    exact hroom
  · rw [hcur]
    exact h.stable
  · rw [hmgr', hmgr]
    exact idsBelow_mono (UInt64.le_of_lt hlt) h.ids0

/-- In a transaction of its own, when the commit fails. -/
theorem failed_commit
    (hroom : ∀ i, (maxRowid (s.mgr.cur.data i).hist).toNat +
      (st.exec ⟨env, m, t, deny⟩ s.mgr.cur).work.stored.length < 2 ^ 64)
    (hcommit : (txnCommit c m t).1 ≠ .ok) :
    (∀ i, nextRows c { s with
        mgr := ((rowBackend c vac env deny).commit
          ((rowBackend c vac env deny).run st t { s.mgr with mgr := m }).2 t).2
        writer := writer } i = nextRows c s i) ↔
      Unseen (committedSees s.mgr.mgr) t.id cs (st.exec ⟨env, m, t, deny⟩ s.mgr.cur).work.stored := by
  obtain ⟨hid, hwritable, -, hnext', -⟩ := txnBegin_ok_inv hbegin
  have hlt : s.mgr.mgr.next < s.mgr.mgr.next + 1 := lt_next_succ (by omega)
  have hinv := h.mgr.begin (by omega) hbegin
  have hend : MgrInv (txnCommit c m t).2 live com := by
    have hinv := hinv.commitFails (c := c) (l := ⟨t, com⟩) rfl hcommit
    rwa [append_nil] at hinv
  have hmgr : (txnCommit c m t).2.next = s.mgr.mgr.next + 1 := hnext'
  have hsucc : (s.mgr.mgr.next + 1).toNat + 1 < 2 ^ 64 := by
    rw [UInt64.toNat_add]
    simp
    omega
  have hid0 : t.id ≠ 0 := hinv.id_ne_zero (l := ⟨t, com⟩) (mem_append_right _ (mem_singleton_self _))
  have hsettle : ((rowBackend c vac env deny).commit
      ((rowBackend c vac env deny).run st t { s.mgr with mgr := m }).2 t).2 =
      { ((rowBackend c vac env deny).run st t { s.mgr with mgr := m }).2 with
        mgr := (txnCommit c m t).2 } := by
    change Paged.settle _ (if t.writable ∧ (txnCommit c m t).1 = .ok then .flushed else .kept) = _
    rw [if_neg (show ¬ (t.writable = true ∧ (txnCommit c m t).1 = .ok) from fun hc => hcommit hc.2)]
    rfl
  rw [hsettle]
  refine forall_congr' fun i => nextRows_eq_iff h.mgr hend htxn (by exact htxn) (by omega) ?_ h.cur ?_ h.ids ?_ i
  · rw [hmgr]
    exact hsucc
  · exact run_rep (m := { s.mgr with mgr := m }) c vac h.cur hid0 hroom
  · rw [hmgr]
    exact idsBelow_storeCalls (by rw [hid]; exact hlt) (idsBelow_mono (UInt64.le_of_lt hlt) h.ids)

end

/-- When there is no transaction to be had. -/
theorem refused_begin {m : TxnMgr} {rc : Status} {writer : UInt64} (h : SessRep s live com cs cs0)
    (htxn : s.txn = none) (hnext : s.mgr.mgr.next.toNat + 2 < 2 ^ 64)
    (hbegin : txnBegin c s.mgr.mgr .snapshot true = (rc, m, none)) (i : Nat) :
    nextRows c { s with mgr := { s.mgr with mgr := m }, writer := writer } i = nextRows c s i := by
  have hinv : MgrInv m live com := h.mgr.refused (by omega) hbegin
  have hlt : s.mgr.mgr.next < s.mgr.mgr.next + 1 := lt_next_succ (by omega)
  have hm : m.next = s.mgr.mgr.next + 1 := by
    unfold txnBegin at hbegin
    dsimp only at hbegin
    split at hbegin
    · split at hbegin
      · cases hbegin
      · cases hbegin
        rfl
    · cases hbegin
  have hroom : m.next.toNat + 1 < 2 ^ 64 := by
    rw [hm, UInt64.toNat_add]
    simp
    omega
  have hids : IdsBelow m.next cs := hm ▸ idsBelow_mono (UInt64.le_of_lt hlt) h.ids
  let s' : Sess TablesDb := { s with mgr := { s.mgr with mgr := m }, writer := writer }
  have hinv' : MgrInv s'.mgr.mgr live com := hinv
  have htxn' : s'.txn = none := htxn
  exact (nextRows_eq_iff h.mgr hinv' htxn htxn' (by omega) hroom h.cur h.cur h.ids hids i).mpr fun _ => rfl

end Statement

/-- `CREATE TABLE t (a INTEGER NOT NULL)`. -/
def notNullTable : Tables :=
  [⟨{ TableDef.new [116] with cols := [{ intColumn [97] with notnull := true }] }, .empty⟩]

/-- A connection on a new database with this table. -/
def notNullSess : Sess TablesDb := ⟨⟨txnmgrOpen freshPager, none, notNullTable, [], ()⟩, 0, none, none⟩

/-- `INSERT INTO t VALUES (..), (..)`, one value for each row. -/
def insertRows (vals : List Value) : Insert :=
  ⟨[116], [], .values (vals.map fun v => [⟨[], fun _ _ => v⟩]), .abort, none, none⟩

end Tdb.Exec
