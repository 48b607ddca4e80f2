import TransactionDB.Txn.Savepoint
import TransactionDB.Txn.Visibility

/-!
# TransactionDB — committed ids after a reopen

A manager takes every id up to the stored `max_txnid` for committed and issues the ids behind
it. `tdb_txn_commit` stores its own id there, without looking at what is stored already. So
where transactions overlap, what counts is the order of their commits: if the last one to
store its id has not the largest, the larger ids are forgotten by a reopen and issued again.
-/

namespace Tdb

open List

variable {c : Codec} {m m' : TxnMgr} {p p' : Pager} {live ls rs : List Txn} {t : Txn}
  {commits : List UInt64} {stored : UInt64} {fs : List Frame} {tail : Bytes}

/-- The header page is among the pages that a commit appends. -/
def HeaderCollected (c : Codec) (p : Pager) : Prop :=
  1 ∈ (collectDirty (flushHeader c p).2).map Page.pgno

/-- The sessions of a manager on a disk without errors, with the live transactions, the ids
of the writable transactions that committed, and the id in the stored header page. The 64-bit
counter of ids never runs out. -/
inductive SessionRun (c : Codec) : TxnMgr → List Txn → List UInt64 → UInt64 → Prop where
  | opened (file wal : Bytes) (pageSize : Nat) (fs : List Frame) (p : Pager)
      (hfiles : DbFiles c file wal pageSize fs)
      (hopen : pagerOpen c ⟨file, []⟩ ⟨wal, []⟩ false = (.ok, p))
      (hmax : p.hdr.maxTxnid.toNat + 1 < 2 ^ 64) :
      SessionRun c (txnmgrOpen p) [] [] (hdrParse (pageImage c p 1)).maxTxnid
  | begin (m m' : TxnMgr) (live : List Txn) (commits : List UInt64) (stored : UInt64)
      (iso : Isolation) (writable : Bool) (t : Txn) (hrun : SessionRun c m live commits stored)
      (hid : m.next.toNat + 1 < 2 ^ 64)
      (hbegin : txnBegin c m iso writable = (.ok, m', some t)) :
      SessionRun c m' (live ++ [t]) commits stored
  /-- Any changes to pages, the header and savepoints. -/
  | work (m : TxnMgr) (ls rs : List Txn) (t : Txn) (commits : List UInt64) (stored : UInt64)
      (ops : List PagerOp) (sps : List (Bytes × Nat))
      (hrun : SessionRun c m (ls ++ t :: rs) commits stored) :
      SessionRun c { m with pager := runOps c m.pager ops } (ls ++ { t with sps := sps } :: rs)
        commits stored
  | commit (m m' : TxnMgr) (ls rs : List Txn) (t : Txn) (commits : List UInt64) (stored : UInt64)
      (hrun : SessionRun c m (ls ++ t :: rs) commits stored) (hw : t.writable = true)
      (hcommit : txnCommit c m t = (.ok, m'))
      (hhdr : HeaderCollected c (setMaxTxnid m.pager t.id)) :
      SessionRun c m' (ls ++ rs) (commits ++ [t.id]) t.id
  /-- A commit that passes over the header page. -/
  | commitOver (m m' : TxnMgr) (ls rs : List Txn) (t : Txn) (commits : List UInt64)
      (stored : UInt64) (hrun : SessionRun c m (ls ++ t :: rs) commits stored)
      (hw : t.writable = true) (hcommit : txnCommit c m t = (.ok, m'))
      (hhdr : ¬ HeaderCollected c (setMaxTxnid m.pager t.id)) :
      SessionRun c m' (ls ++ rs) (commits ++ [t.id]) stored
  | commitReader (m m' : TxnMgr) (ls rs : List Txn) (t : Txn) (commits : List UInt64)
      (stored : UInt64) (hrun : SessionRun c m (ls ++ t :: rs) commits stored)
      (hw : t.writable = false) (hcommit : txnCommit c m t = (.ok, m')) :
      SessionRun c m' (ls ++ rs) commits stored
  | rollback (m m' : TxnMgr) (ls rs : List Txn) (t : Txn) (commits : List UInt64)
      (stored : UInt64) (rc : Status) (hrun : SessionRun c m (ls ++ t :: rs) commits stored)
      (hroll : txnRollback c m t = (rc, m')) : SessionRun c m' (ls ++ rs) commits stored

/-- The committed ids are known as such after the database was closed and opened again, and
no manager that was opened on it, whatever it has done since, issues one of them. -/
def StaysCommitted (c : Codec) (p : Pager) (commits : List UInt64) : Prop :=
  ∃ p2, pagerOpen c (pagerClose c p).1 (pagerClose c p).2 false = (.ok, p2) ∧
    ∀ id ∈ commits, id ≤ p2.hdr.maxTxnid ∧ txnmgrState (txnmgrOpen p2) id = .committed ∧
      ∀ m live com iso writable m' t, MgrRun c m live com → m.base = (txnmgrOpen p2).base →
        txnBegin c m iso writable = (.ok, m', some t) → t.id ≠ id

/-! ## The invariant -/

structure SessionInv (c : Codec) (m : TxnMgr) (live : List Txn) (commits : List UInt64)
    (stored : UInt64) : Prop where
  inv : ∃ fs tail, PagerInv c m.pager fs tail
  writable : m.pager.readonly = false
  one : HasPageOne c m.pager
  magic : hasMagic ((m.pager.store c).base 1) = true
  stored : (hdrParse ((m.pager.store c).base 1)).maxTxnid = stored
  base_lt : m.base < m.next
  live_ids : ∀ t ∈ live, m.base < t.id
  commit_ids : ∀ id ∈ commits, m.base < id

/-- The header page is collected if and only if the commit stores it. -/
theorem CommitSpec.mem_iff_collected {q : Pager} {pages : List (UInt32 × Bytes)}
    (h : CacheInv c p fs tail) (hc : c.Inverts) (hq : commitFramesOf c p = (.ok, q))
    (hspec : CommitSpec c p q fs tail pages) : 1 ∈ pages.map Prod.fst ↔ HeaderCollected c p := by
  obtain ⟨p1, wal, file, hflush, -, -, -, rfl⟩ := commitFramesOf_ok_inv hq
  obtain ⟨p1', hflush', h1, hstore, -⟩ := h.flush hc
  cases hflush.symm.trans hflush'
  have hdirty1 : ∃ data, (p1.store c).dirty 1 = some data := by
    rw [hstore]
    simp [Store.flush, Store.write, Store.setHdr]
  obtain ⟨data, hdata⟩ := hdirty1
  obtain ⟨pg, hlook, hd, -⟩ := lookup_of_dirty hdata
  have hkey : pg.pgno = 1 := Keyed.key_of_find hlook
  have hdirty := hspec.dirty 1
  rw [← hstore, hdata] at hdirty
  unfold HeaderCollected
  rw [hflush]
  set S := (collectDirty p1).map Page.pgno with hS
  have hlook' : cacheLookup { markClean { p1 with wal := { wal with file := file } } S with
      inTxn := false, sps := [] } 1 = some (if pg.pgno ∈ S then { pg with dirty := false } else pg) := by
    change cacheLookup (markClean _ S) 1 = _
    rw [cacheLookup_markClean, show cacheLookup { p1 with wal := { wal with file := file } } 1
      = some pg from hlook]
    rfl
  simp only [Pager.store, hlook', Option.bind_some] at hdirty
  rw [hkey] at hdirty
  constructor
  · intro hpages
    by_contra hmem
    rw [if_neg hmem, if_pos hpages, if_pos hd] at hdirty
    cases hdirty
  · intro hmem
    by_contra hpages
    rw [if_pos hmem, if_neg hpages] at hdirty
    cases hdirty

/-- A step that leaves the files alone. -/
theorem SessionInv.of_disk (h : SessionInv c m live commits stored) {live' : List Txn}
    (hinv : PagerInv c m'.pager fs tail) (hd : SameDisk m.pager m'.pager)
    (hbase : m'.base = m.base) (hlt : m'.base < m'.next)
    (hlive : ∀ t ∈ live', m'.base < t.id) : SessionInv c m' live' commits stored := by
  have hsame := hd.base c
  refine ⟨⟨fs, tail, hinv⟩, hd.readonly.trans h.writable, hd.hasPageOne h.one, ?_, ?_, hlt, hlive,
    by rw [hbase]; exact h.commit_ids⟩
  · rw [hsame]
    exact h.magic
  · rw [hsame]
    exact h.stored

theorem txnCommit_ok_inv (hw : t.writable = true) (hcommit : txnCommit c m t = (.ok, m')) :
    pagerCommit c (setMaxTxnid m.pager t.id) = (.ok, m'.pager) ∧ m'.base = m.base ∧
      m'.next = m.next := by
  unfold txnCommit at hcommit
  simp only [hw, if_true, Prod.mk.injEq] at hcommit
  obtain ⟨hrc, rfl⟩ := hcommit
  exact ⟨Prod.ext hrc rfl, rfl, rfl⟩

theorem txnCommit_of_pager (hw : t.writable = true)
    (hrun : pagerCommit c (setMaxTxnid m.pager t.id) = (.ok, p')) :
    ∃ m', txnCommit c m t = (.ok, m') ∧ m'.pager = p' := by
  unfold txnCommit
  simp only [hw, if_true, hrun]
  exact ⟨_, rfl, rfl⟩

theorem mem_of_mem_removed {α : Type*} {ls rs : List α} {t u : α} (hu : u ∈ ls ++ rs) :
    u ∈ ls ++ t :: rs := by
  rcases mem_append.mp hu with hu | hu
  · exact mem_append_left _ hu
  · exact mem_append_right _ (mem_cons_of_mem _ hu)

theorem sessionInv_opened (hc : c.Inverts) {file wal : Bytes} {pageSize : Nat}
    (hfiles : DbFiles c file wal pageSize fs)
    (hopen : pagerOpen c ⟨file, []⟩ ⟨wal, []⟩ false = (.ok, p))
    (hmax : p.hdr.maxTxnid.toNat + 1 < 2 ^ 64) :
    SessionInv c (txnmgrOpen p) [] [] (hdrParse (pageImage c p 1)).maxTxnid := by
  obtain ⟨⟨fs', tail, hinv⟩, hclean, hro, hstored⟩ := hfiles.open hc hopen
  obtain ⟨hmagic, hone⟩ := hstored hro
  refine ⟨⟨fs', tail, hinv⟩, hro, hone, hmagic, ?_, (mgrInv_opened hmax).base_lt, by simp, by simp⟩
  rw [hinv.toCacheInv.pageImage_eq, Store.read_of_clean (dirty_eq_none hclean 1)]
  rfl

theorem SessionInv.begin (hc : c.Inverts) (h : SessionInv c m live commits stored)
    (hid : m.next.toNat + 1 < 2 ^ 64) {iso : Isolation} {writable : Bool}
    (hbegin : txnBegin c m iso writable = (.ok, m', some t)) :
    SessionInv c m' (live ++ [t]) commits stored := by
  obtain ⟨fs, tail, hinv⟩ := h.inv
  obtain ⟨htid, -, hbase, hnext, hpager⟩ := txnBegin_ok_inv hbegin
  have hlt : m'.base < m'.next := by
    rw [hbase, hnext]
    exact UInt64.lt_trans h.base_lt (lt_next_succ hid)
  have hlive : ∀ u ∈ live ++ [t], m'.base < u.id := by
    intro u hu
    rw [hbase]
    rcases mem_append.mp hu with hu | hu
    · exact h.live_ids u hu
    · rw [mem_singleton.mp hu, htid]
      exact h.base_lt
  rcases hpager with hpager | hpager
  · rw [← hpager] at hinv
    exact h.of_disk hinv (by rw [hpager]; exact .refl _) hbase hlt hlive
  · obtain ⟨hb, hd⟩ := hinv.op hc .begin
    rw [show PagerOp.begin.run c m.pager = m'.pager from hpager.symm] at hb hd
    exact h.of_disk hb hd hbase hlt hlive

theorem SessionInv.rollback (hc : c.Inverts) (h : SessionInv c m (ls ++ t :: rs) commits stored)
    {rc : Status} (hroll : txnRollback c m t = (rc, m')) :
    SessionInv c m' (ls ++ rs) commits stored := by
  obtain ⟨fs, tail, hinv⟩ := h.inv
  have hlive : ∀ u ∈ ls ++ rs, m.base < u.id := fun u hu => h.live_ids u (mem_of_mem_removed hu)
  unfold txnRollback at hroll
  cases hw : t.writable with
  | false =>
    simp only [hw, Bool.false_eq_true, if_false] at hroll
    cases hroll
    exact ⟨h.inv, h.writable, h.one, h.magic, h.stored, h.base_lt, hlive, h.commit_ids⟩
  | true =>
    obtain ⟨p', hrun, hinv', -, hd⟩ := hinv.rollback hc
    simp only [hw, if_true, hrun] at hroll
    cases hroll
    exact h.of_disk hinv' hd rfl h.base_lt hlive

/-- A commit stores its id with the header page. -/
theorem SessionInv.commit (hc : c.Inverts) (h : SessionInv c m (ls ++ t :: rs) commits stored)
    (hw : t.writable = true) (hcommit : txnCommit c m t = (.ok, m')) :
    (HeaderCollected c (setMaxTxnid m.pager t.id) →
      SessionInv c m' (ls ++ rs) (commits ++ [t.id]) t.id) ∧
    (¬ HeaderCollected c (setMaxTxnid m.pager t.id) →
      SessionInv c m' (ls ++ rs) (commits ++ [t.id]) stored) := by
  obtain ⟨fs, tail, hinv0⟩ := h.inv
  have hinv : PagerInv c (setMaxTxnid m.pager t.id) fs tail :=
    (hinv0.op hc (.page (.setMaxTxnid t.id))).1
  obtain ⟨hrun, hbase, hnext⟩ := txnCommit_ok_inv hw hcommit
  obtain ⟨q, pages, fs', tail', hq, hspec, hp, hstore, wal, file, hp'⟩ := hinv.commit hc hrun
  have hids : ∀ id ∈ commits ++ [t.id], m.base < id := by
    intro id hid
    rcases mem_append.mp hid with hid | hid
    · exact h.commit_ids id hid
    · rw [mem_singleton.mp hid]
      exact h.live_ids t (by simp)
  have hall : ∀ stored', (hdrParse ((q.store c).base 1)).maxTxnid = stored' →
      SessionInv c m' (ls ++ rs) (commits ++ [t.id]) stored' := by
    intro stored' hs
    refine ⟨⟨fs', tail', hp⟩, ?_, hinv.commit_hasPageOne hc hrun (Or.inl h.one), ?_, ?_, ?_, ?_, ?_⟩
    · rw [hp']
      exact hspec.readonly.trans h.writable
    · rw [hstore]
      exact hinv.stored_commit hspec hc (Or.inl h.magic)
    · rw [hstore]
      exact hs
    · rw [hbase, hnext]
      exact h.base_lt
    · rw [hbase]
      exact fun u hu => h.live_ids u (mem_of_mem_removed hu)
    · rw [hbase]
      exact hids
  have hiff := hspec.mem_iff_collected hinv.toCacheInv hc hq
  have hpage := hspec.base hinv.toCacheInv hc 1
  constructor
  · intro hcol
    refine hall _ ?_
    rw [hpage, if_pos (hiff.mpr hcol)]
    obtain ⟨data, hdata⟩ : ∃ data, ((setMaxTxnid m.pager t.id).store c).flush.dirty 1 = some data := by
      simp [Store.flush, Store.write, Store.setHdr]
    rw [Store.read, hdata]
    change (hdrParse data).maxTxnid = t.id
    rw [(hinv.flushed_header hdata).2]
    rfl
  · intro hcol
    refine hall _ ?_
    rw [hpage, if_neg (fun hmem => hcol (hiff.mp hmem))]
    exact h.stored

/-- **Every session** keeps the invariant. -/
theorem SessionRun.inv (hc : c.Inverts) (hrun : SessionRun c m live commits stored) :
    SessionInv c m live commits stored := by
  induction hrun with
  | opened file wal pageSize fs p hfiles hopen hmax => exact sessionInv_opened hc hfiles hopen hmax
  | begin m m' live commits stored iso writable t _ hid hbegin ih => exact ih.begin hc hid hbegin
  | work m ls rs t commits stored ops sps _ ih =>
    obtain ⟨fs, tail, hinv⟩ := ih.inv
    obtain ⟨hops, hd⟩ := hinv.ops hc ops
    refine ih.of_disk hops hd rfl ih.base_lt (fun u hu => ?_)
    rcases mem_append.mp hu with hu | hu
    · exact ih.live_ids u (mem_append_left _ hu)
    · rcases mem_cons.mp hu with rfl | hu
      · exact ih.live_ids t (by simp)
      · exact ih.live_ids u (mem_append_right _ (mem_cons_of_mem _ hu))
  | commit m m' ls rs t commits stored _ hw hcommit hhdr ih => exact (ih.commit hc hw hcommit).1 hhdr
  | commitOver m m' ls rs t commits stored _ hw hcommit hhdr ih =>
    exact (ih.commit hc hw hcommit).2 hhdr
  | commitReader m m' ls rs t commits stored _ hw hcommit ih =>
    unfold txnCommit at hcommit
    simp only [hw, Bool.false_eq_true, if_false] at hcommit
    cases hcommit
    exact ⟨ih.inv, ih.writable, ih.one, ih.magic, ih.stored, ih.base_lt,
      fun u hu => ih.live_ids u (mem_of_mem_removed hu), ih.commit_ids⟩
  | rollback m m' ls rs t commits stored rc _ hroll ih => exact ih.rollback hc hroll

/-- **Committed transactions stay committed exactly when the stored id, that of the last commit
that wrote the header page, is the largest of them.** -/
theorem staysCommitted_iff (hc : c.Inverts) (hrun : SessionRun c m [] commits stored) :
    StaysCommitted c m.pager commits ↔ ∀ id ∈ commits, id ≤ stored := by
  have h := hrun.inv hc
  obtain ⟨fs, tail, hinv⟩ := h.inv
  obtain ⟨p2, hopen, -, hhdr⟩ := hinv.close_open hc h.writable h.magic h.one
  have hmax : p2.hdr.maxTxnid = stored := by rw [hhdr, h.stored]
  constructor
  · rintro ⟨p2', hopen', hall⟩ id hid
    cases hopen.symm.trans hopen'
    rw [← hmax]
    exact (hall id hid).1
  · intro hle
    refine ⟨p2, hopen, fun id hid => ⟨by rw [hmax]; exact hle id hid, ?_, ?_⟩⟩
    · have hne : id ≠ 0 := by
        rintro rfl
        exact absurd (UInt64.lt_iff_toNat_lt.mp (h.commit_ids 0 hid)) (by simp)
      have hbase : id ≤ (txnmgrOpen p2).base := by
        change id ≤ p2.hdr.maxTxnid
        rw [hmax]
        exact hle id hid
      rw [txnmgrState, if_neg hne, if_pos hbase]
    · intro m2 live com iso writable m3 t hrun2 hbase hbegin heq
      obtain ⟨htid, -⟩ := txnBegin_ok_inv hbegin
      have hlt := hrun2.inv.base_lt
      rw [hbase, ← htid, heq] at hlt
      have hle' : id ≤ p2.hdr.maxTxnid := by
        rw [hmax]
        exact hle id hid
      exact UInt64.lt_irrefl _ (UInt64.lt_of_lt_of_le hlt hle')

/-! ## Transactions without changes -/

/-- A writable transaction that changed nothing commits, with the header page. -/
theorem SessionInv.commit_clean (ls : List Txn) (hc : c.Inverts)
    (h : SessionInv c m (ls ++ t :: rs) commits stored) (hw : t.writable = true)
    (hclean : ∀ g, (m.pager.store c).dirty g = none) :
    ∃ m', txnCommit c m t = (.ok, m') ∧ HeaderCollected c (setMaxTxnid m.pager t.id) ∧
      ∀ g, (m'.pager.store c).dirty g = none := by
  obtain ⟨fs, tail, hinv0⟩ := h.inv
  have hinv : PagerInv c (setMaxTxnid m.pager t.id) fs tail :=
    (hinv0.op hc (.page (.setMaxTxnid t.id))).1
  have hclean' : ∀ g data, ((setMaxTxnid m.pager t.id).store c).dirty g ≠ some data := by
    intro g data hg
    rw [show ((setMaxTxnid m.pager t.id).store c).dirty g = (m.pager.store c).dirty g from rfl,
      hclean g] at hg
    cases hg
  obtain ⟨q0, -, -, hrun⟩ := hinv.toCacheInv.commit_succeeds hc h.writable hinv.wal_fail
    (fun g data hg => absurd hg (hclean' g data))
  obtain ⟨m', hcommit, hpager⟩ := txnCommit_of_pager hw hrun
  obtain ⟨q, pages, fs', tail', hq, hspec, hp, hstore, -⟩ := hinv.commit hc hrun
  have hfit : (setMaxTxnid m.pager t.id).otherDirty + 1 ≤ dirtyMax := by
    have hle := hinv.toCacheInv.otherDirty_le (S := [])
      (fun g data hg => absurd hg (hclean' g data))
    simp only [length_nil] at hle
    simp only [dirtyMax]
    omega
  refine ⟨m', hcommit,
    (hspec.mem_iff_collected hinv.toCacheInv hc hq).mp (hspec.mem_of_fit hfit), fun g => ?_⟩
  rw [hpager, hstore]
  exact hspec.dirty_eq_none hfit g

/-- A new database, and a first transaction, which has id 1. -/
theorem newSession (hc : c.Inverts) : ∃ p m t stored,
    pagerOpen c ⟨[], []⟩ ⟨[], []⟩ false = (.ok, p) ∧
      txnBegin c (txnmgrOpen p) .snapshot true = (.ok, m, some t) ∧ t.id = 1 ∧ t.writable = true ∧
      m.next = 2 ∧ (∀ g, (m.pager.store c).dirty g = none) ∧ SessionRun c m [t] [] stored := by
  obtain ⟨p, hopen, hro, -, hhdr, hclean, -⟩ := pagerOpen_empty hc
  obtain ⟨m, t, hbegin, hpager, hw, htid, hnext⟩ :=
    txnBegin_ok (c := c) (m := txnmgrOpen p) hro .snapshot
  have hmax : (txnmgrOpen p).next = 1 := by
    change p.hdr.maxTxnid + 1 = 1
    rw [hhdr]
    rfl
  refine ⟨p, m, t, _, hopen, hbegin, htid.trans hmax, hw, by rw [hnext, hmax]; rfl, ?_,
    .begin _ _ [] [] _ .snapshot true t (.opened [] [] 4096 [] p (dbFiles_empty c) hopen ?_) ?_ hbegin⟩
  · rw [hpager]
    exact hclean
  · rw [hhdr]
    decide
  · rw [hmax]
    decide

/-- One transaction after the other. -/
theorem staysCommitted_one : ∃ p m t m',
    pagerOpen Codec.identity ⟨[], []⟩ ⟨[], []⟩ false = (.ok, p) ∧
      txnBegin Codec.identity (txnmgrOpen p) .snapshot true = (.ok, m, some t) ∧
      txnCommit Codec.identity m t = (.ok, m') ∧
      StaysCommitted Codec.identity m'.pager [t.id] := by
  have hc := Codec.identity_inverts
  obtain ⟨p, m, t, stored, hopen, hbegin, -, hw, -, hclean, hrun⟩ := newSession hc
  obtain ⟨m', hcommit, hhdr, -⟩ := (hrun.inv hc).commit_clean [] hc hw hclean
  refine ⟨p, m, t, m', hopen, hbegin, hcommit, ?_⟩
  refine (staysCommitted_iff hc (.commit m m' [] [] t [] _ hrun hw hcommit hhdr)).mpr ?_
  intro id hid
  rw [mem_singleton.mp hid]
  exact UInt64.le_refl _

/-- Transactions 1 and 2 overlap, and 2 commits first. After the database was closed and
opened again, 2 counts as aborted, and the next transaction gets the id 2. -/
theorem committed_forgotten : ∃ p m1 t1 m2 t2 m3 m4 p2 m5 t5,
    pagerOpen Codec.identity ⟨[], []⟩ ⟨[], []⟩ false = (.ok, p) ∧
      txnBegin Codec.identity (txnmgrOpen p) .snapshot true = (.ok, m1, some t1) ∧
      txnBegin Codec.identity m1 .snapshot true = (.ok, m2, some t2) ∧
      txnCommit Codec.identity m2 t2 = (.ok, m3) ∧ txnCommit Codec.identity m3 t1 = (.ok, m4) ∧
      pagerOpen Codec.identity (pagerClose Codec.identity m4.pager).1
        (pagerClose Codec.identity m4.pager).2 false = (.ok, p2) ∧
      p2.hdr.maxTxnid < t2.id ∧ txnmgrState (txnmgrOpen p2) t2.id = .aborted ∧
      txnBegin Codec.identity (txnmgrOpen p2) .snapshot true = (.ok, m5, some t5) ∧
      t5.id = t2.id := by
  have hc := Codec.identity_inverts
  obtain ⟨p, m1, t1, stored, hopen, hbegin1, hid1, hw1, hnext1, hclean1, hrun1⟩ := newSession hc
  obtain ⟨m2, t2, hbegin2, hpager2, hw2, hid2, -⟩ :=
    txnBegin_ok (c := Codec.identity) (hrun1.inv hc).writable .snapshot
  rw [hnext1] at hid2
  have hrun2 := SessionRun.begin m1 m2 [t1] [] stored .snapshot true t2 hrun1
    (by rw [hnext1]; decide) hbegin2
  have hclean2 : ∀ g, (m2.pager.store Codec.identity).dirty g = none := by
    rw [hpager2]
    exact hclean1
  obtain ⟨m3, hcommit2, hhdr2, hclean3⟩ := (hrun2.inv hc).commit_clean [t1] hc hw2 hclean2
  have hrun3 := SessionRun.commit m2 m3 [t1] [] t2 [] stored hrun2 hw2 hcommit2 hhdr2
  obtain ⟨m4, hcommit1, hhdr1, -⟩ := (hrun3.inv hc).commit_clean [] hc hw1 hclean3
  have hrun4 := SessionRun.commit m3 m4 [] [] t1 _ _ hrun3 hw1 hcommit1 hhdr1
  -- the stored id is now 1
  have h4 := hrun4.inv hc
  obtain ⟨fs, tail, hinv⟩ := h4.inv
  obtain ⟨p2, hopen2, hro2, hhdr⟩ := hinv.close_open hc h4.writable h4.magic h4.one
  have hmax : p2.hdr.maxTxnid = 1 := by rw [hhdr, h4.stored, hid1]
  obtain ⟨m5, t5, hbegin5, -, -, hid5, -⟩ :=
    txnBegin_ok (c := Codec.identity) (m := txnmgrOpen p2) hro2 .snapshot
  refine ⟨p, m1, t1, m2, t2, m3, m4, p2, m5, t5, hopen, hbegin1, hbegin2, hcommit2, hcommit1,
    hopen2, ?_, ?_, hbegin5, ?_⟩
  · rw [hmax, hid2]
    decide
  · rw [txnmgrState, hid2, show (txnmgrOpen p2).base = 1 from hmax]
    rfl
  · rw [hid5, hid2]
    change p2.hdr.maxTxnid + 1 = 2
    rw [hmax]
    rfl

end Tdb
