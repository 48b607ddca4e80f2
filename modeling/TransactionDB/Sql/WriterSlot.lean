import TransactionDB.Sql.Session
import TransactionDB.Storage.CommitComplete

/-!
# TransactionDB — the writer slot

While the writer slot is taken, an open connection should have a transaction with the id in
it: then the slot is given back when that transaction ends. Two steps break this. `tdb_close`
rolls back the transaction of a connection but does not give back its slot, and a write
without an open transaction on a read-only database releases the slot under another id than
it claimed it with. After either one the slot stays taken.

`StmtEffect` says once what a statement can do to the slot, to the connection's transaction and
to the counter of ids; the rest follows from it.
-/

namespace Tdb

open List

variable {μ ρ ω : Type*}

variable {id : UInt64} {s s' : Sess μ} {st : Stmt ρ ω} {err : Option ErrMsg} {txn : Option Txn}

/-- What a backend does to ids: a transaction gets the next one, and nothing else moves the
counter. -/
structure Backend.Ids (b : Backend μ ρ ω) : Prop where
  begins : ∀ m writable, (∃ m' t, b.begin m writable = (.ok, m', some t) ∧ t.id = b.peekNext m ∧
      b.peekNext m' = b.peekNext m + 1) ∨
    ∃ rc m', b.begin m writable = (rc, m', none) ∧ rc ≠ .ok ∧ b.peekNext m' = b.peekNext m + 1
  commit : ∀ m t, b.peekNext (b.commit m t).2 = b.peekNext m
  rollback : ∀ m t, b.peekNext (b.rollback m t).2 = b.peekNext m
  savepoint : ∀ m t name, b.peekNext (b.savepoint m t name).2.1 = b.peekNext m ∧
    (b.savepoint m t name).2.2.id = t.id
  release : ∀ m t name, b.peekNext (b.release m t name).2.1 = b.peekNext m ∧
    (b.release m t name).2.2.id = t.id
  rollbackTo : ∀ m t name, b.peekNext (b.rollbackTo m t name).2.1 = b.peekNext m ∧
    (b.rollbackTo m t name).2.2.id = t.id
  vacuum : ∀ m, b.peekNext (b.vacuum m).2 = b.peekNext m
  query : ∀ q t m, b.peekNext (b.query q t m).2 = b.peekNext m
  run : ∀ op t m, b.peekNext (b.run op t m).2 = b.peekNext m

theorem pagerBackend_ids (c : Codec) : (pagerBackend c).Ids where
  begins := by
    intro m writable
    change (∃ m' t, txnBegin c m .snapshot writable = (.ok, m', some t) ∧ t.id = m.next ∧
        m'.next = m.next + 1) ∨ ∃ rc m', txnBegin c m .snapshot writable = (rc, m', none) ∧
          rc ≠ .ok ∧ m'.next = m.next + 1
    unfold txnBegin pagerBegin
    cases writable with
    | false => exact Or.inl ⟨_, _, rfl, rfl, rfl⟩
    | true =>
      cases hro : m.pager.readonly with
      | false =>
        simp only [hro, Bool.false_eq_true, if_false, if_true]
        exact Or.inl ⟨_, _, rfl, rfl, rfl⟩
      | true =>
        simp only [hro, if_true]
        exact Or.inr ⟨_, _, rfl, by simp, rfl⟩
  commit := fun _ _ => rfl
  rollback := fun _ _ => rfl
  savepoint := by
    intro m t name
    change (txnSavepoint m t name).2.1.next = m.next ∧ (txnSavepoint m t name).2.2.id = t.id
    unfold txnSavepoint
    split
    · split <;> exact ⟨rfl, rfl⟩
    · exact ⟨rfl, rfl⟩
  release := by
    intro m t name
    change (txnRelease m t name).2.1.next = m.next ∧ (txnRelease m t name).2.2.id = t.id
    unfold txnRelease
    split <;> exact ⟨rfl, rfl⟩
  rollbackTo := by
    intro m t name
    change (txnRollbackTo m t name).2.1.next = m.next ∧ (txnRollbackTo m t name).2.2.id = t.id
    unfold txnRollbackTo
    split <;> exact ⟨rfl, rfl⟩
  vacuum := fun _ => rfl
  query := fun _ _ _ => rfl
  run := fun _ _ _ => rfl

/-! ## What a statement can do -/

/-- The effect of a statement on the slot, the connection's transaction and the counter. -/
inductive StmtEffect (b : Backend μ ρ ω) (s s' : Sess μ) : Stmt ρ ω → Prop where
  /-- Nothing, besides a transaction that came and went. -/
  | kept (st : Stmt ρ ω) (hst : st.isWrite = false)
      (htxn : s'.txn.map Txn.id = s.txn.map Txn.id) (hw : s'.writer = s.writer)
      (hnext : b.peekNext s'.mgr = b.peekNext s.mgr ∨ b.peekNext s'.mgr = b.peekNext s.mgr + 1) :
      StmtEffect b s s' st
  | started (st : Stmt ρ ω) (hst : st.isWrite = false) (hnone : s.txn = none)
      (htxn : s'.txn.map Txn.id = some (b.peekNext s.mgr)) (hw : s'.writer = s.writer)
      (hnext : b.peekNext s'.mgr = b.peekNext s.mgr + 1) : StmtEffect b s s' st
  | ended (st : Stmt ρ ω) (hst : st.isWrite = false) (t : Txn) (hsome : s.txn = some t) (htxn : s'.txn = none)
      (hw : s'.writer = releaseWriter s.writer t.id)
      (hnext : b.peekNext s'.mgr = b.peekNext s.mgr) : StmtEffect b s s' st
  /-- A write that was refused the slot. -/
  | refused (op : ω) (htxn : s'.txn = s.txn) (htaken : s.writer ≠ 0) (hw : s'.writer = s.writer)
      (hnext : b.peekNext s'.mgr = b.peekNext s.mgr) : StmtEffect b s s' (.write op)
  | claimed (op : ω) (t : Txn) (hsome : s.txn = some t)
      (htxn : s'.txn.map Txn.id = some t.id) (hfree : s.writer = 0 ∨ s.writer = t.id)
      (hw : s'.writer = t.id) (hnext : b.peekNext s'.mgr = b.peekNext s.mgr) :
      StmtEffect b s s' (.write op)
  /-- A write in a transaction of its own. -/
  | auto (op : ω) (hnone : s.txn = none) (htxn : s'.txn = none) (hfree : s.writer = 0)
      (hbegin : (b.begin s.mgr true).1 = .ok) (hw : s'.writer = 0)
      (hnext : b.peekNext s'.mgr = b.peekNext s.mgr + 1) : StmtEffect b s s' (.write op)
  /-- A write whose own transaction was refused: the slot is not given back. -/
  | leaked (op : ω) (hnone : s.txn = none) (htxn : s'.txn = none) (hfree : s.writer = 0)
      (hbegin : (b.begin s.mgr true).1 ≠ .ok) (hw : s'.writer = b.peekNext s.mgr)
      (hnext : b.peekNext s'.mgr = b.peekNext s.mgr + 1) : StmtEffect b s s' (.write op)

section Effects

variable {b : Backend μ ρ ω}

theorem uint64_ne_succ (x : UInt64) : x ≠ x + 1 := by
  intro h
  have := congrArg UInt64.toNat h
  rw [UInt64.toNat_add] at this
  simp at this
  omega

theorem releaseWriter_ne {writer : UInt64} (h : writer ≠ id) : releaseWriter writer id = writer :=
  if_neg h

theorem StmtEffect.same (st : Stmt ρ ω) (hst : st.isWrite = false) (hm : s'.mgr = s.mgr)
    (hw : s'.writer = s.writer) (htxn : s'.txn = s.txn) : StmtEffect b s s' st :=
  .kept st hst (by rw [htxn]) hw (Or.inl (by rw [hm]))

theorem StmtEffect.next (h : StmtEffect b s s' st) :
    b.peekNext s'.mgr = b.peekNext s.mgr ∨ b.peekNext s'.mgr = b.peekNext s.mgr + 1 := by
  cases h with
  | kept _ hst htxn hw hnext => exact hnext
  | started _ _ _ _ _ hnext | auto _ _ _ _ _ _ hnext | leaked _ _ _ _ _ _ hnext => exact Or.inr hnext
  | ended _ _ _ _ _ _ hnext | refused _ _ _ _ hnext | claimed _ _ _ _ _ _ hnext => exact Or.inl hnext

/-- The connection keeps its id, loses it or gets the next one. -/
theorem StmtEffect.txn_id (h : StmtEffect b s s' st) (hid : s'.txn.map Txn.id = some id) :
    s.txn.map Txn.id = some id ∨
      (id = b.peekNext s.mgr ∧ b.peekNext s'.mgr = b.peekNext s.mgr + 1) := by
  cases h with
  | kept _ hst htxn hw hnext => exact Or.inl (htxn.symm.trans hid)
  | started _ hst hnone htxn hw hnext =>
    rw [htxn] at hid
    exact Or.inr ⟨(Option.some.inj hid).symm, hnext⟩
  | ended _ _ _ _ htxn | auto _ _ htxn | leaked _ _ htxn => simp [htxn] at hid
  | refused op htxn htaken hw hnext => exact Or.inl (by rw [← htxn]; exact hid)
  | claimed op t hsome htxn hfree hw hnext =>
    rw [htxn] at hid
    exact Or.inl (by rw [hsome]; exact hid)

/-- The slot is kept, given back, or taken by the connection. -/
theorem StmtEffect.writer (h : StmtEffect b s s' st) :
    s'.writer = 0 ∨ s'.writer = s.writer ∨ (∃ t, s.txn = some t ∧ s'.writer = t.id) ∨
      (s'.writer = b.peekNext s.mgr ∧ b.peekNext s'.mgr = b.peekNext s.mgr + 1) := by
  cases h with
  | kept _ hst htxn hw hnext | started _ hst hnone htxn hw hnext | refused op htxn htaken hw hnext =>
    exact Or.inr (Or.inl hw)
  | ended _ hst t hsome htxn hw hnext =>
    rw [hw, releaseWriter]
    split
    · exact Or.inl rfl
    · exact Or.inr (Or.inl rfl)
  | claimed op t hsome htxn hfree hw hnext => exact Or.inr (Or.inr (Or.inl ⟨t, hsome, hw⟩))
  | auto op hnone htxn hfree hbegin hw hnext => exact Or.inl hw
  | leaked op hnone htxn hfree hbegin hw hnext => exact Or.inr (Or.inr (Or.inr ⟨hw, hnext⟩))

theorem execTxn_effect (hb : b.Ids) (s : Sess μ) (st : Stmt ρ ω) (hst : st.isWrite = false) :
    StmtEffect b s (execTxn b s st).2 st := by
  obtain ⟨m, writer, txn, err⟩ := s
  cases st with
  | begin =>
    cases txn with
    | some t => exact .same _ rfl rfl rfl rfl
    | none =>
      rcases hb.begins m true with ⟨m', t, hbegin, hid, hnext⟩ | ⟨rc, m', hbegin, -, hnext⟩
      · exact .started _ rfl rfl (by simp [execTxn, hbegin, hid]) rfl (by simp [execTxn, hbegin, hnext])
      · exact .kept _ rfl (by simp [execTxn, hbegin]) rfl (by simp [execTxn, hbegin, hnext])
  | commit =>
    cases txn with
    | some t => exact .ended _ rfl t rfl rfl rfl (hb.commit m t)
    | none => exact .same _ rfl rfl rfl rfl
  | rollback =>
    cases txn with
    | some t => exact .ended _ rfl t rfl rfl rfl (hb.rollback m t)
    | none => exact .same _ rfl rfl rfl rfl
  | savepoint name =>
    cases txn with
    | some t =>
      obtain ⟨hnext, hid⟩ := hb.savepoint m t name
      exact .kept _ rfl (congrArg some hid) rfl (.inl hnext)
    | none =>
      rcases hb.begins m true with ⟨m', t, hbegin, hid, hnext⟩ | ⟨rc, m', hbegin, hrc, hnext⟩
      · obtain ⟨hnext', hid'⟩ := hb.savepoint m' t name
        exact .started _ rfl rfl (by simp [execTxn, hbegin, hid', hid]) (by simp [execTxn, hbegin])
          (by simp [execTxn, hbegin, hnext', hnext])
      · exact .kept _ rfl (by simp [execTxn, hbegin]) (by simp [execTxn, hbegin])
          (by simp [execTxn, hbegin, hnext])
  | release name =>
    cases txn with
    | some t =>
      obtain ⟨hnext, hid⟩ := hb.release m t name
      exact .kept _ rfl (congrArg some hid) rfl (.inl hnext)
    | none => exact .same _ rfl rfl rfl rfl
  | rollbackTo name =>
    cases txn with
    | some t =>
      obtain ⟨hnext, hid⟩ := hb.rollbackTo m t name
      exact .kept _ rfl (congrArg some hid) rfl (.inl hnext)
    | none => exact .same _ rfl rfl rfl rfl
  | explain | vacuum | select q streams => exact .same _ rfl rfl rfl rfl
  | write op => cases hst

theorem execSelect_effect (hb : b.Ids) (s : Sess μ) (hne : s.writer ≠ b.peekNext s.mgr) (q : ρ)
    (streams : Bool) : StmtEffect b s (execSelect b s q streams).2.1 (.select q streams) := by
  obtain ⟨m, writer, txn, err⟩ := s
  cases txn with
  | some t => exact .kept _ rfl rfl rfl (.inl (hb.query ..))
  | none =>
    rcases hb.begins m false with ⟨m', t, hbegin, hid, hnext⟩ | ⟨rc, m', hbegin, hrc, hnext⟩
    · cases streams with
      | true =>
        exact .kept _ rfl (by simp [execSelect, hbegin]) (by simp [execSelect, hbegin])
          (by simp [execSelect, hbegin, hb.query, hnext])
      | false =>
        have hrel : releaseWriter writer t.id = writer := releaseWriter_ne (by rw [hid]; exact hne)
        exact .kept _ rfl (by simp [execSelect, hbegin]) (by simp [execSelect, hbegin, hrel])
          (by simp [execSelect, hbegin, hb.query, hb.rollback, hnext])
    · exact .kept _ rfl (by simp [execSelect, hbegin]) (by simp [execSelect, hbegin])
        (by simp [execSelect, hbegin, hnext])

/-- A write that is granted the slot. -/
theorem acquireWriter_of_free {writer : UInt64} (h : writer = 0 ∨ writer = id) :
    acquireWriter writer id = (.ok, id) := if_pos h

theorem acquireWriter_refused {writer : UInt64} (h : ¬ (writer = 0 ∨ writer = id)) :
    ∃ rc, acquireWriter writer id = (rc, writer) ∧ rc ≠ .ok := by
  refine ⟨if id < writer then .busy else .abort, if_neg h, ?_⟩
  split <;> decide

theorem execWrite_effect (hb : b.Ids) (s : Sess μ) (hne : s.writer ≠ b.peekNext s.mgr)
    (h0 : b.peekNext s.mgr ≠ 0) (op : ω) : StmtEffect b s (execWrite b s op).2 (.write op) := by
  by_cases hfree : s.writer = 0 ∨ s.writer = writeClaim b s.mgr s.txn
  · cases htxn : s.txn with
    | some t =>
      rw [htxn] at hfree
      have hacq : acquireWriter s.writer t.id = (.ok, t.id) := acquireWriter_of_free hfree
      exact .claimed op t htxn (by simp [execWrite, writeClaim, htxn, hacq]) hfree
        (by simp [execWrite, writeClaim, htxn, hacq])
        (by simp [execWrite, writeClaim, htxn, hacq, hb.run])
    | none =>
      rw [htxn] at hfree
      have hacq : acquireWriter s.writer (b.peekNext s.mgr) = (.ok, b.peekNext s.mgr) :=
        acquireWriter_of_free hfree
      have hzero : s.writer = 0 := hfree.resolve_right hne
      rcases hb.begins s.mgr true with ⟨m', t, hbegin, hid, hnext⟩ | ⟨rc, m', hbegin, hrc, hnext⟩
      · have ht0 : t.id ≠ 0 := by rw [hid]; exact h0
        refine .auto op htxn (by simp [execWrite, writeClaim, htxn, hacq, hbegin]) hzero
          (by rw [hbegin]) (by simp [execWrite, writeClaim, htxn, hacq, hbegin, ht0, releaseWriter]) ?_
        simp only [execWrite, writeClaim, htxn, hacq, hbegin]
        split
        · rw [hb.commit, hb.run, hnext]
        · rw [hb.rollback, hb.run, hnext]
      · have hrel : releaseWriter (b.peekNext s.mgr) (b.peekNext m') = b.peekNext s.mgr :=
          releaseWriter_ne (by rw [hnext]; exact uint64_ne_succ _)
        exact .leaked op htxn (by simp [execWrite, writeClaim, htxn, hacq, hbegin]) hzero
          (by rw [hbegin]; exact hrc)
          (by simp [execWrite, writeClaim, htxn, hacq, hbegin, hrel])
          (by simp [execWrite, writeClaim, htxn, hacq, hbegin, hnext])
  · obtain ⟨rc, hacq, hrc⟩ := acquireWriter_refused hfree
    have hrun : execWrite b s op = (rc, { s with err := some .locked }) := by
      unfold execWrite
      rw [hacq]
      cases rc <;> first | rfl | exact absurd rfl hrc
    rw [hrun]
    exact .refused op rfl (fun h => hfree (Or.inl h)) rfl rfl

/-- **What a statement can do**, where the slot does not hold an id yet to come. -/
theorem stmtExecute_effect (hb : b.Ids) (s : Sess μ) (hne : s.writer ≠ b.peekNext s.mgr)
    (h0 : b.peekNext s.mgr ≠ 0) (st : Stmt ρ ω) : StmtEffect b s (stmtExecute b s st).2.1 st := by
  cases st with
  | explain => exact .same _ rfl rfl rfl rfl
  | vacuum =>
    obtain ⟨m, writer, txn, err⟩ := s
    cases txn with
    | some t => exact .same _ rfl rfl rfl rfl
    | none => exact .kept _ rfl rfl rfl (.inl (hb.vacuum m))
  | select q streams => exact execSelect_effect hb s hne q streams
  | write op => exact execWrite_effect hb s hne h0 op
  | begin => exact execTxn_effect hb s .begin rfl
  | commit => exact execTxn_effect hb s .commit rfl
  | rollback => exact execTxn_effect hb s .rollback rfl
  | savepoint name => exact execTxn_effect hb s (.savepoint name) rfl
  | release name => exact execTxn_effect hb s (.release name) rfl
  | rollbackTo name => exact execTxn_effect hb s (.rollbackTo name) rfl

end Effects

/-! ## The slot along a run -/

/-- While the slot is taken, an open connection has a transaction with the id in it. -/
def SlotOwned (w : World μ) : Prop :=
  w.alive = true → w.writer ≠ 0 →
    ∃ conn ∈ w.conns, conn.isOpen = true ∧ conn.txn.map Txn.id = some w.writer

/-- If no other connection has an open transaction, a write on connection `i` is granted the
slot. -/
def WriteGranted (b : Backend μ ρ ω) (w : World μ) (i : Nat) : Prop :=
  ∀ txn err, w.conns[i]? = some ⟨true, txn, err⟩ →
    (∀ j conn, j ≠ i → w.conns[j]? = some conn → conn.txn = none) →
    (acquireWriter w.writer (writeClaim b w.mgr txn)).1 = .ok

/-- The steps that keep the slot from leaking: a connection that is closed does not hold it,
unless it is the last one; and a write in a transaction of its own gets that transaction. -/
def KeepsSlot (b : Backend μ ρ ω) (w : World μ) : Event ρ ω → Prop
  | .exec i (.write _) =>
    ∀ err, w.conns[i]? = some ⟨true, none, err⟩ → w.writer = 0 → (b.begin w.mgr true).1 = .ok
  | .close i =>
    ∀ t err, w.conns[i]? = some ⟨true, some t, err⟩ → t.id = w.writer → (w.close b i).alive = false
  | _ => True

/-- Ids of open transactions are different, and below the counter; so is the id in the slot. -/
structure WorldInv (b : Backend μ ρ ω) (w : World μ) : Prop where
  ids : ∀ i id, w.idAt i = some id → 0 < id.toNat ∧ id.toNat < (b.peekNext w.mgr).toNat
  inj : ∀ i j id, w.idAt i = some id → w.idAt j = some id → i = j
  closed : ∀ conn ∈ w.conns, conn.isOpen = false → conn.txn = none
  writer_lt : w.writer.toNat < (b.peekNext w.mgr).toNat

section Run

variable {b : Backend μ ρ ω} {w w' : World μ} {i : Nat}

theorem alive_of_open (hi : w.conns[i]? = some ⟨true, txn, err⟩) : w.alive = true :=
  any_eq_true.mpr ⟨_, mem_of_getElem? hi, rfl⟩

theorem idAt_of_conn {conn : Conn} (hi : w.conns[i]? = some conn) :
    w.idAt i = conn.txn.map Txn.id := by
  rw [World.idAt, hi]
  rfl

theorem WorldInv.slotOwned_iff (h : WorldInv b w) :
    SlotOwned w ↔ (w.alive = true → w.writer ≠ 0 → ∃ i, w.idAt i = some w.writer) := by
  refine imp_congr_right fun _ => imp_congr_right fun _ => ⟨?_, ?_⟩
  · rintro ⟨conn, hmem, -, hid⟩
    obtain ⟨i, hi⟩ := mem_iff_getElem?.mp hmem
    exact ⟨i, (idAt_of_conn hi).trans hid⟩
  · rintro ⟨i, hid⟩
    obtain ⟨conn, hi, hid⟩ := Option.bind_eq_some_iff.mp hid
    have hmem := mem_of_getElem? hi
    refine ⟨conn, hmem, ?_, hid⟩
    by_contra hopen
    rw [h.closed conn hmem (by simpa using hopen)] at hid
    cases hid

/-- The slot does not hold an id yet to come. -/
theorem WorldInv.writer_ne (h : WorldInv b w) : w.writer ≠ b.peekNext w.mgr := by
  intro heq
  have hlt := h.writer_lt
  rw [heq] at hlt
  exact lt_irrefl _ hlt

theorem WorldInv.next_ne_zero (h : WorldInv b w) : b.peekNext w.mgr ≠ 0 := by
  intro hz
  have hlt := h.writer_lt
  rw [hz] at hlt
  simp at hlt

/-- **A write is granted the slot** where it is owned and no other transaction is open. -/
theorem WorldInv.writeGranted (h : WorldInv b w) (hslot : SlotOwned w) (i : Nat) :
    WriteGranted b w i := by
  intro txn err hi hothers
  suffices hfree : w.writer = 0 ∨ w.writer = writeClaim b w.mgr txn by
    rw [acquireWriter_of_free hfree]
  by_cases h0 : w.writer = 0
  · exact Or.inl h0
  · -- the owner can only be this connection
    obtain ⟨j, hid⟩ := h.slotOwned_iff.mp hslot (alive_of_open hi) h0
    obtain ⟨conn, hj, hid⟩ := Option.bind_eq_some_iff.mp hid
    by_cases hji : j = i
    · subst hji
      rw [hi] at hj
      cases hj
      obtain ⟨t, ht, hid⟩ := Option.map_eq_some_iff.mp hid
      have ht : txn = some t := ht
      exact Or.inr (by rw [ht]; exact hid.symm)
    · rw [hothers j conn hji hj] at hid
      cases hid

/-- Connection `i` replaced. -/
theorem idAt_set {conn conn' : Conn} (hi : w.conns[i]? = some conn) (m : μ) (writer : UInt64)
    (streams : List Txn) (j : Nat) :
    (⟨m, writer, w.conns.set i conn', streams⟩ : World μ).idAt j
      = if j = i then conn'.txn.map Txn.id else w.idAt j := by
  unfold World.idAt
  by_cases hj : j = i
  · subst hj
    have hlt : j < w.conns.length := (List.getElem?_eq_some_iff.mp hi).1
    rw [if_pos rfl, getElem?_set_self hlt]
    rfl
  · rw [if_neg hj, getElem?_set_ne (Ne.symm hj)]

theorem uint64_toNat_succ {x : UInt64} (h : x.toNat + 1 < 2 ^ 64) : (x + 1).toNat = x.toNat + 1 := by
  rw [UInt64.toNat_add]
  simp
  omega

/-- The invariant after a change of connection `i`, from the ids only. -/
theorem WorldInv.of_idAt (h : WorldInv b w) (hids : ∀ j id, w'.idAt j = some id →
      w.idAt j = some id ∨ (j = i ∧ id = b.peekNext w.mgr ∧
        b.peekNext w'.mgr = b.peekNext w.mgr + 1))
    (hnext : b.peekNext w'.mgr = b.peekNext w.mgr ∨ b.peekNext w'.mgr = b.peekNext w.mgr + 1)
    (hroom : (b.peekNext w.mgr).toNat + 1 < 2 ^ 64)
    (hclosed : ∀ conn ∈ w'.conns, conn.isOpen = false → conn.txn = none)
    (hw : w'.writer.toNat < (b.peekNext w'.mgr).toNat) : WorldInv b w' := by
  have hsucc := uint64_toNat_succ hroom
  have hpos := h.writer_lt
  have hle : (b.peekNext w.mgr).toNat ≤ (b.peekNext w'.mgr).toNat := by
    rcases hnext with hn | hn <;> rw [hn]
    omega
  refine ⟨fun j id hj => ?_, fun j k id hj hk => ?_, hclosed, hw⟩
  · rcases hids j id hj with hj | ⟨-, rfl, hn⟩
    · obtain ⟨h1, h2⟩ := h.ids j id hj
      omega
    · rw [hn]
      omega
  · rcases hids j id hj with hj | ⟨hji, heq, -⟩ <;> rcases hids k id hk with hk | ⟨hki, heq', -⟩
    · exact h.inj j k id hj hk
    · have hlt := (h.ids j id hj).2
      rw [heq'] at hlt
      omega
    · have hlt := (h.ids k id hk).2
      rw [heq] at hlt
      omega
    · exact hji.trans hki.symm

/-- An owner other than connection `i` stays one. -/
theorem WorldInv.slot_kept (h : WorldInv b w) (h' : WorldInv b w') (hslot : SlotOwned w)
    (halive : w.alive = true) (hw : w'.writer = w.writer)
    (hids : ∀ j, w.idAt j = some w.writer → w'.idAt j = some w.writer) : SlotOwned w' := by
  rw [h'.slotOwned_iff]
  intro _ hne
  rw [hw] at hne ⊢
  obtain ⟨j, hj⟩ := h.slotOwned_iff.mp hslot halive hne
  exact ⟨j, hids j hj⟩

theorem keepsSlot_of_not_write (hst : st.isWrite = false) :
    KeepsSlot b w (.exec i st) := by
  cases st <;> trivial

theorem World.open_or_not (w : World μ) (i : Nat) :
    (∃ txn err, w.conns[i]? = some ⟨true, txn, err⟩) ∨
      ∀ txn err, w.conns[i]? ≠ some ⟨true, txn, err⟩ := by
  by_cases hopen : ∃ txn err, w.conns[i]? = some ⟨true, txn, err⟩
  · exact .inl hopen
  · exact .inr fun txn err hi => hopen ⟨txn, err, hi⟩

theorem World.exec_of_not_open (hi : ∀ txn err, w.conns[i]? ≠ some ⟨true, txn, err⟩)
    (st : Stmt ρ ω) : w.exec b i st = (.misuse, w) := by
  unfold World.exec
  split
  · rename_i txn err hopen
    exact absurd hopen (hi txn err)
  · rfl

theorem World.exec_of_open (hi : w.conns[i]? = some ⟨true, txn, err⟩) (st : Stmt ρ ω) :
    ∃ rc s' own, stmtExecute b ⟨w.mgr, w.writer, txn, err⟩ st = (rc, s', own) ∧
      w.exec b i st = (rc, ⟨s'.mgr, s'.writer, w.conns.set i ⟨true, s'.txn, s'.err⟩,
        w.streams ++ own.toList⟩) := by
  obtain ⟨rc, s', own, hrun⟩ : ∃ rc s' own,
      stmtExecute b ⟨w.mgr, w.writer, txn, err⟩ st = (rc, s', own) := ⟨_, _, _, rfl⟩
  refine ⟨rc, s', own, hrun, ?_⟩
  simp only [World.exec, hi, hrun]

theorem closed_set (conn' : Conn) (i : Nat) (h : WorldInv b w)
    (hconn : conn'.isOpen = false → conn'.txn = none) :
    ∀ conn ∈ w.conns.set i conn', conn.isOpen = false → conn.txn = none := by
  intro conn hmem
  rcases mem_or_eq_of_mem_set hmem with hmem | rfl
  · exact h.closed conn hmem
  · exact hconn

/-- A statement on an open connection, by its effect. -/
theorem WorldInv.effect (hb : b.Ids) (h : WorldInv b w) (hi : w.conns[i]? = some ⟨true, txn, err⟩)
    (st : Stmt ρ ω) :
    ∃ s' streams, (w.exec b i st).2
        = ⟨s'.mgr, s'.writer, w.conns.set i ⟨true, s'.txn, s'.err⟩, streams⟩ ∧
      StmtEffect b ⟨w.mgr, w.writer, txn, err⟩ s' st := by
  obtain ⟨rc, s', own, hrun, hexec⟩ := World.exec_of_open (b := b) hi st
  have heff := stmtExecute_effect hb ⟨w.mgr, w.writer, txn, err⟩ h.writer_ne h.next_ne_zero st
  rw [hrun] at heff
  exact ⟨s', _, congrArg Prod.snd hexec, heff⟩

/-- One statement. -/
theorem WorldInv.exec (hb : b.Ids) (h : WorldInv b w)
    (hroom : (b.peekNext w.mgr).toNat + 1 < 2 ^ 64) (i : Nat) (st : Stmt ρ ω) :
    WorldInv b (w.exec b i st).2 ∧
      (b.peekNext (w.exec b i st).2.mgr).toNat ≤ (b.peekNext w.mgr).toNat + 1 := by
  rcases w.open_or_not i with ⟨txn, err, hi⟩ | hnot
  swap
  · rw [World.exec_of_not_open hnot]
    exact ⟨h, Nat.le_succ _⟩
  have hsucc := uint64_toNat_succ hroom
  obtain ⟨s', streams, hexec, heff⟩ := h.effect hb hi st
  rw [hexec]
  set w' : World μ := ⟨s'.mgr, s'.writer, w.conns.set i ⟨true, s'.txn, s'.err⟩, streams⟩ with hw'
  have hid : ∀ j, w'.idAt j = if j = i then s'.txn.map Txn.id else w.idAt j :=
    fun j => idAt_set hi _ _ _ j
  have hidi : w.idAt i = txn.map Txn.id := idAt_of_conn hi
  have hle : (b.peekNext w'.mgr).toNat ≤ (b.peekNext w.mgr).toNat + 1 ∧
      (b.peekNext w.mgr).toNat ≤ (b.peekNext w'.mgr).toNat := by
    rcases heff.next with hn | hn
    · rw [show b.peekNext w'.mgr = b.peekNext w.mgr from hn]
      omega
    · rw [show b.peekNext w'.mgr = b.peekNext w.mgr + 1 from hn]
      omega
  refine ⟨h.of_idAt (i := i) (fun j id hj => ?_) heff.next hroom
    (closed_set ⟨true, s'.txn, s'.err⟩ i h (by simp)) ?_, hle.1⟩
  · rw [hid] at hj
    split at hj
    · rename_i hji
      rcases heff.txn_id hj with hold | hnew
      · exact Or.inl (by rw [hji, hidi]; exact hold)
      · exact Or.inr ⟨hji, hnew⟩
    · exact Or.inl hj
  · have hlt := h.writer_lt
    rcases heff.writer with hz | hz | ⟨t, ht, hz⟩ | ⟨hz, hn⟩
    · rw [show w'.writer = 0 from hz]
      simp
      omega
    · rw [show w'.writer = w.writer from hz]
      omega
    · have ht : txn = some t := ht
      have hlt' := (h.ids i t.id (by rw [hidi, ht]; rfl)).2
      rw [show w'.writer = t.id from hz]
      omega
    · rw [show w'.writer = b.peekNext w.mgr from hz,
        show b.peekNext w'.mgr = b.peekNext w.mgr + 1 from hn]
      omega

/-- The slot over one statement. -/
theorem WorldInv.exec_slot (hb : b.Ids) (h : WorldInv b w) (hslot : SlotOwned w)
    (hroom : (b.peekNext w.mgr).toNat + 1 < 2 ^ 64) (i : Nat) (st : Stmt ρ ω) :
    SlotOwned (w.exec b i st).2 ↔ KeepsSlot b w (.exec i st) := by
  have h' := (h.exec hb hroom i st).1
  rcases w.open_or_not i with ⟨txn, err, hi⟩ | hnot
  swap
  · rw [World.exec_of_not_open hnot]
    refine ⟨fun _ => ?_, fun _ => hslot⟩
    cases st <;> first | trivial | exact fun err hi => absurd hi (hnot none err)
  have halive := alive_of_open hi
  have h0 := h.next_ne_zero
  obtain ⟨s', streams, hexec, heff⟩ := h.effect hb hi st
  rw [hexec] at h' ⊢
  set w' : World μ := ⟨s'.mgr, s'.writer, w.conns.set i ⟨true, s'.txn, s'.err⟩, streams⟩ with hw'
  have hid : ∀ j, w'.idAt j = if j = i then s'.txn.map Txn.id else w.idAt j :=
    fun j => idAt_set hi _ _ _ j
  have hidi : w.idAt i = txn.map Txn.id := idAt_of_conn hi
  -- the slot is kept where its owner is another connection
  have hother : ∀ j, j ≠ i → w.idAt j = some w.writer → w'.idAt j = some w.writer := by
    intro j hji hj
    rw [hid, if_neg hji]
    exact hj
  have hsame : s'.txn.map Txn.id = txn.map Txn.id →
      ∀ j, w.idAt j = some w.writer → w'.idAt j = some w.writer := by
    intro htxn j hj
    by_cases hji : j = i
    · rw [hid, if_pos hji, htxn, ← hidi, ← hji]
      exact hj
    · exact hother j hji hj
  cases heff with
  | kept _ hst htxn hw hnext =>
    exact ⟨fun _ => keepsSlot_of_not_write hst, fun _ => h.slot_kept h' hslot halive hw (hsame htxn)⟩
  | started _ hst hnone htxn hw hnext =>
    refine ⟨fun _ => keepsSlot_of_not_write hst, fun _ => h.slot_kept h' hslot halive hw fun j hj => ?_⟩
    refine hother j (fun hji => ?_) hj
    have hnone : txn = none := hnone
    rw [hji, hidi, hnone] at hj
    cases hj
  | ended _ hst t hsome htxn hw hnext =>
    refine ⟨fun _ => keepsSlot_of_not_write hst, fun _ => ?_⟩
    have hsome : txn = some t := hsome
    by_cases hown : w.writer = t.id
    · intro _ hne
      exact absurd (hw.trans (if_pos hown)) hne
    · refine h.slot_kept h' hslot halive (hw.trans (if_neg hown)) fun j hj => ?_
      refine hother j (fun hji => ?_) hj
      rw [hji, hidi, hsome] at hj
      exact hown (Option.some.inj hj).symm
  | refused op htxn htaken hw hnext =>
    exact ⟨fun _ err _ hzero => absurd hzero htaken,
      fun _ => h.slot_kept h' hslot halive hw (hsame (congrArg _ htxn))⟩
  | claimed op t hsome htxn hfree hw hnext =>
    have hsome : txn = some t := hsome
    refine ⟨fun _ err' hi' _ => ?_, fun _ => h'.slotOwned_iff.mpr fun _ _ => ⟨i, ?_⟩⟩
    · rw [hi, hsome] at hi'
      cases hi'
    · rw [hid, if_pos rfl, htxn]
      exact congrArg some hw.symm
  | auto op hnone htxn hfree hbegin hw hnext =>
    exact ⟨fun _ err' _ _ => hbegin, fun _ _ hne => absurd hw hne⟩
  | leaked op hnone htxn hfree hbegin hw hnext =>
    have hnone : txn = none := hnone
    refine ⟨fun hslot' => ?_, fun hkeep => absurd (hkeep err (by rw [hi, hnone]) hfree) hbegin⟩
    -- no transaction has the id left in the slot
    have halive' : w'.alive = true :=
      alive_of_open (i := i) (getElem?_set_self (List.getElem?_eq_some_iff.mp hi).1)
    have hne : w'.writer ≠ 0 := by
      rw [show w'.writer = b.peekNext w.mgr from hw]
      exact h0
    obtain ⟨j, hj⟩ := h'.slotOwned_iff.mp hslot' halive' hne
    rw [show w'.writer = b.peekNext w.mgr from hw, hid, htxn] at hj
    split at hj
    · cases hj
    · exact absurd (h.ids j _ hj).2 (lt_irrefl _)

/-- An event that leaves the connections and the counter alone. -/
theorem WorldInv.congr (h : WorldInv b w) {m : μ} (streams : List Txn)
    (hnext : b.peekNext m = b.peekNext w.mgr) : WorldInv b ⟨m, w.writer, w.conns, streams⟩ := by
  refine ⟨fun i id hi => ?_, h.inj, h.closed, ?_⟩
  · rw [hnext]
    exact h.ids i id hi
  · rw [hnext]
    exact h.writer_lt

theorem idAt_connect (w : World μ) (j : Nat) :
    ({ w with conns := w.conns ++ [⟨true, none, none⟩] } : World μ).idAt j = w.idAt j := by
  unfold World.idAt
  rcases lt_trichotomy j w.conns.length with hj | hj | hj
  · rw [getElem?_append_left hj]
  · rw [getElem?_append_right (le_of_eq hj.symm), hj]
    simp
  · rw [getElem?_eq_none (by simp; omega), getElem?_eq_none (by omega)]

/-- A new connection has no transaction. -/
theorem WorldInv.connect (h : WorldInv b w) :
    WorldInv b { w with conns := w.conns ++ [⟨true, none, none⟩] } := by
  refine ⟨fun i id hi => h.ids i id (by rw [← idAt_connect]; exact hi), fun i j id hi hj =>
    h.inj i j id (by rw [← idAt_connect]; exact hi) (by rw [← idAt_connect]; exact hj),
    fun conn hmem hopen => ?_, h.writer_lt⟩
  rcases mem_append.mp hmem with hmem | hmem
  · exact h.closed conn hmem hopen
  · rw [mem_singleton.mp hmem]

theorem World.close_of_not_open (hi : ∀ txn err, w.conns[i]? ≠ some ⟨true, txn, err⟩) :
    w.close b i = w := by
  unfold World.close
  split
  · rename_i txn err hopen
    exact absurd hopen (hi txn err)
  · rfl

theorem World.close_of_open (hb : b.Ids) (hi : w.conns[i]? = some ⟨true, txn, err⟩) : ∃ m, w.close b i
      = ⟨m, w.writer, w.conns.set i ⟨false, none, none⟩, w.streams⟩ ∧
        b.peekNext m = b.peekNext w.mgr := by
  cases txn with
  | none => exact ⟨w.mgr, by simp [World.close, hi], rfl⟩
  | some t => exact ⟨(b.rollback w.mgr t).2, by simp [World.close, hi], hb.rollback w.mgr t⟩

/-- A closed connection has no transaction. -/
theorem idAt_close {conn : Conn} (hi : w.conns[i]? = some conn) (m : μ) {j : Nat}
    (hj : (⟨m, w.writer, w.conns.set i ⟨false, none, none⟩, w.streams⟩ : World μ).idAt j = some id) :
    w.idAt j = some id := by
  rw [idAt_set hi] at hj
  split at hj
  · cases hj
  · exact hj

section

variable (hb : b.Ids) (h : WorldInv b w)

include hb h

theorem WorldInv.close (i : Nat) :
    WorldInv b (w.close b i) ∧ b.peekNext (w.close b i).mgr = b.peekNext w.mgr := by
  rcases w.open_or_not i with ⟨txn, err, hi⟩ | hnot
  swap
  · rw [World.close_of_not_open hnot]
    exact ⟨h, rfl⟩
  obtain ⟨m, hclose, hnext⟩ := World.close_of_open hb hi
  rw [hclose]
  refine ⟨⟨fun j id hj => ?_, fun j k id hj hk => h.inj j k id (idAt_close hi m hj)
    (idAt_close hi m hk), closed_set ⟨false, none, none⟩ i h (fun _ => rfl), ?_⟩, hnext⟩
  · rw [hnext]
    exact h.ids j id (idAt_close hi m hj)
  · rw [hnext]
    exact h.writer_lt

/-- `tdb_close` leaves the slot as it is. -/
theorem WorldInv.close_slot (hslot : SlotOwned w) (i : Nat) :
    SlotOwned (w.close b i) ↔ KeepsSlot b w (.close i) := by
  have h' := (h.close hb i).1
  rcases w.open_or_not i with ⟨txn, err, hi⟩ | hnot
  swap
  · rw [World.close_of_not_open hnot]
    exact ⟨fun _ t err hi => absurd hi (hnot _ err), fun _ => hslot⟩
  have halive := alive_of_open hi
  obtain ⟨m, hclose, hnext⟩ := World.close_of_open hb hi
  have hkeep : KeepsSlot b w (.close i) ↔ ∀ t err, w.conns[i]? = some ⟨true, some t, err⟩ →
      t.id = w.writer → (w.close b i).alive = false := Iff.rfl
  rw [hkeep]
  rw [hclose] at h' ⊢
  set w' : World μ := ⟨m, w.writer, w.conns.set i ⟨false, none, none⟩, w.streams⟩ with hw'
  have hid : ∀ j, w'.idAt j = if j = i then none else w.idAt j := fun j => idAt_set hi _ _ _ j
  have hidi : w.idAt i = txn.map Txn.id := idAt_of_conn hi
  refine ⟨fun hslot' t err' hi' hown => ?_, fun hsafe => ?_⟩
  · -- its transaction was the only one with this id
    rw [hi] at hi'
    cases hi'
    by_contra halive'
    have hne : w'.writer ≠ 0 := by
      intro hz
      have hpos := (h.ids i t.id hidi).1
      rw [hown, show w.writer = 0 from hz] at hpos
      simp at hpos
    obtain ⟨j, hj⟩ := h'.slotOwned_iff.mp hslot' (by simpa using halive') hne
    have hji : j = i := h.inj j i w.writer (idAt_close hi m hj) (by rw [hidi, ← hown]; rfl)
    rw [hid, if_pos hji] at hj
    cases hj
  · by_cases hown : w.idAt i = some w.writer
    · rw [hidi] at hown
      obtain ⟨t, ht, hid'⟩ := Option.map_eq_some_iff.mp hown
      have hdead := hsafe t err (by rw [hi, ht]) hid'
      intro halive'
      rw [hdead] at halive'
      cases halive'
    · refine h.slot_kept h' hslot halive rfl fun j hj => ?_
      rw [hid, if_neg (fun hji => hown (by rw [← hji]; exact hj))]
      exact hj

/-- **One event.** -/
theorem WorldInv.step (hroom : (b.peekNext w.mgr).toNat + 1 < 2 ^ 64) (e : Event ρ ω) :
    WorldInv b (w.step b e) ∧
      (b.peekNext (w.step b e).mgr).toNat ≤ (b.peekNext w.mgr).toNat + 1 := by
  cases e with
  | connect =>
    simp only [World.step]
    split
    · exact ⟨h.connect, Nat.le_succ _⟩
    · exact ⟨h, Nat.le_succ _⟩
  | exec i st => exact h.exec hb hroom i st
  | fetch k q =>
    simp only [World.step]
    split
    · exact ⟨h.congr w.streams (hb.query q _ w.mgr), by rw [hb.query]; omega⟩
    · exact ⟨h, Nat.le_succ _⟩
  | finish k =>
    simp only [World.step]
    split
    · exact ⟨h.congr _ (hb.rollback w.mgr _), by rw [hb.rollback]; omega⟩
    · exact ⟨h, Nat.le_succ _⟩
  | close i =>
    obtain ⟨h', hnext⟩ := h.close hb i
    exact ⟨h', by change (b.peekNext (w.close b i).mgr).toNat ≤ _; rw [hnext]; omega⟩

/-- The slot over one event. -/
theorem WorldInv.step_slot (hslot : SlotOwned w) (hroom : (b.peekNext w.mgr).toNat + 1 < 2 ^ 64)
    (e : Event ρ ω) :
    SlotOwned (w.step b e) ↔ KeepsSlot b w e := by
  cases e with
  | connect =>
    refine ⟨fun _ => trivial, fun _ => ?_⟩
    by_cases halive : w.alive = true
    · simp only [World.step, halive, if_true]
      refine h.slot_kept h.connect hslot halive rfl fun j hj => ?_
      rw [idAt_connect]
      exact hj
    · simp only [World.step, halive, Bool.false_eq_true, if_false]
      exact hslot
  | exec i st => exact h.exec_slot hb hslot hroom i st
  | fetch k q | finish k =>
    refine ⟨fun _ => trivial, fun _ => ?_⟩
    simp only [World.step]
    split <;> exact hslot
  | close i => exact h.close_slot hb hslot i

end

/-- What holds after every event holds after a run. -/
theorem WorldInv.runs (hb : b.Ids) (es : List (Event ρ ω)) : ∀ {w : World μ}, WorldInv b w →
    (b.peekNext w.mgr).toNat + es.length < 2 ^ 64 → WorldInv b (w.run b es) := by
  induction es with
  | nil => exact fun h _ => h
  | cons e es ih =>
    intro w h hroom
    rw [length_cons] at hroom
    obtain ⟨h', hle⟩ := h.step hb (by omega) e
    exact ih h' (by omega)

/-- The slot is owned after every event, and writes are granted it. -/
def SlotNeverLeaks (b : Backend μ ρ ω) (w : World μ) (es : List (Event ρ ω)) : Prop :=
  ∀ k, SlotOwned (w.run b (es.take k)) ∧ ∀ i, WriteGranted b (w.run b (es.take k)) i

/-- **A whole run**, by induction on it: the slot never leaks exactly when every event keeps
it. -/
theorem WorldInv.run (hb : b.Ids) (es : List (Event ρ ω)) : ∀ {w : World μ}, WorldInv b w →
    SlotOwned w → (b.peekNext w.mgr).toNat + es.length < 2 ^ 64 →
    (SlotNeverLeaks b w es ↔
      ∀ k e, es[k]? = some e → KeepsSlot b (w.run b (es.take k)) e) := by
  induction es with
  | nil =>
    intro w h hslot _
    refine ⟨fun _ k e hk => by simp at hk, fun _ k => ?_⟩
    rw [take_nil]
    exact ⟨hslot, h.writeGranted hslot⟩
  | cons e es ih =>
    intro w h hslot hroom
    rw [length_cons] at hroom
    obtain ⟨h', hle⟩ := h.step hb (by omega) e
    have hiff := h.step_slot hb hslot (by omega) e
    constructor
    · intro hall k e' hk
      have hkeep : KeepsSlot b w e := hiff.mp (hall 1).1
      cases k with
      | zero =>
        cases hk
        exact hkeep
      | succ k =>
        exact (ih h' (hiff.mpr hkeep) (by omega)).mp (fun k => hall (k + 1)) k e' hk
    · intro hall k
      have hslot' := hiff.mpr (hall 0 e rfl)
      cases k with
      | zero => exact ⟨hslot, h.writeGranted hslot⟩
      | succ k =>
        exact (ih h' hslot' (by omega)).mpr (fun k e' hk => hall (k + 1) e' hk) k

end Run

theorem worldInv_new {p : Pager} (c : Codec) (hmax : p.hdr.maxTxnid.toNat + 1 < 2 ^ 64) :
    WorldInv (pagerBackend c) (World.new (txnmgrOpen p)) ∧ SlotOwned (World.new (txnmgrOpen p)) := by
  have hid : ∀ i, (World.new (txnmgrOpen p)).idAt i = none := by
    intro i
    cases i with
    | zero => rfl
    | succ i => simp [World.idAt, World.new]
  refine ⟨⟨fun i id hi => ?_, fun i j id hi => ?_, by simp [World.new], ?_⟩, fun _ hne => absurd rfl hne⟩
  · rw [hid] at hi
    cases hi
  · rw [hid] at hi
    cases hi
  · change (0 : UInt64).toNat < (p.hdr.maxTxnid + 1).toNat
    rw [uint64_toNat_succ hmax]
    simp

/-- **The writer slot never leaks, exactly when** no connection is closed while its transaction
holds the slot and others stay open, and no write starts a transaction of its own on a
read-only database. -/
theorem writerSlot_never_leaks_iff (c : Codec) (p : Pager)
    (es : List (Event (List UInt32 × Status) (List PageOp × Status)))
    (hids : p.hdr.maxTxnid.toNat + 1 + es.length < 2 ^ 64) :
    SlotNeverLeaks (pagerBackend c) (World.new (txnmgrOpen p)) es ↔
      ∀ k e, es[k]? = some e →
        KeepsSlot (pagerBackend c) ((World.new (txnmgrOpen p)).run (pagerBackend c) (es.take k)) e := by
  obtain ⟨h, hslot⟩ := worldInv_new c (p := p) (by omega)
  refine h.run (pagerBackend_ids c) es hslot ?_
  change (p.hdr.maxTxnid + 1).toNat + es.length < 2 ^ 64
  rw [uint64_toNat_succ (by omega)]
  exact hids

/-- A transaction that writes and is rolled back. -/
theorem writerSlot_rolled_back : SlotNeverLeaks (pagerBackend Codec.identity)
    (World.new (txnmgrOpen freshPager)) [.exec 0 .begin, .exec 0 (.write ([], .ok)), .exec 0 .rollback] := by
  refine (writerSlot_never_leaks_iff _ _ _ (by decide)).mpr fun k e hk => ?_
  match k, hk with
  | 0, hk => cases hk; trivial
  | 1, hk =>
    cases hk
    intro err hopen
    cases hopen
  | 2, hk => cases hk; trivial

/-- Connection 0 is closed in the middle of a transaction that has written. The slot stays
taken, and a write on connection 1, the only one left, is refused. -/
theorem writerSlot_leaks : ∃ w, w = (World.new (txnmgrOpen freshPager)).run (pagerBackend Codec.identity)
      [.connect, .exec 0 .begin, .exec 0 (.write ([], .ok)), .close 0] ∧
    w.writer = 1 ∧ w.conns = [⟨false, none, none⟩, ⟨true, none, none⟩] ∧
    (w.exec (pagerBackend Codec.identity) 1 (.write ([], .ok))).1 = .abort :=
  ⟨_, rfl, rfl, rfl, rfl⟩

end Tdb
