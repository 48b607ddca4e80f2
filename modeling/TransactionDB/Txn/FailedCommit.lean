import TransactionDB.Storage.Rollback
import TransactionDB.Txn.Savepoint

/-!
# TransactionDB — commits that fail

`tdb_txn_commit` returns the error of `tdb_pager_commit` and marks the transaction aborted,
but nothing is undone: the dirty pages stay in the cache, and the frames that reached the log
stay in its page map. A failed commit leaves no trace if and only if it would have changed
nothing, not even the header page.
-/

namespace Tdb

open Layout List

/-- From here on the disk of the log fails as `fail` says. -/
def Pager.withFail (p : Pager) (fail : List (Option Nat)) : Pager :=
  { p with wal := { p.wal with file := { p.wal.file with fail := fail } } }

/-- What a commit of `p` would store: its pages, with the header in page 1. -/
def flushedImage (c : Codec) (p : Pager) (g : UInt32) : Bytes := (p.store c).flush.read g

/-- The frames a commit of `p` appends. -/
def commitFramesFor (c : Codec) (p : Pager) : List Frame :=
  commitFrames (flushHeader c p).2.hdr.dbSize (committedPages (flushHeader c p).2)

/-- The pager `q` shows nothing but the images `img`, whatever is done next: reading, rolling
back, committing another transaction, a checkpoint, or a reopen of the files in which recovery
finds the committed frames `fs` and some of the frames `gs` written since. -/
structure NoTrace (c : Codec) (q : Pager) (fs gs : List Frame) (img : UInt32 → Bytes) : Prop where
  reads : ∀ g, g ≠ 0 → ∃ q' pg, pagerGet c q g = (.ok, q', some pg) ∧ pg.data = img g
  rollback : ∀ q', pagerRollback c q = (.ok, q') → ∀ g, g ≠ 0 → pageImage c q' g = img g
  commit : ∀ (ops : List PageOp) q', pagerCommit c (ops.foldl (PageOp.run c) q) = (.ok, q') →
    ∀ g, g ≠ 0 → g ≠ 1 → pageImage c (ops.foldl (PageOp.run c) q) g = pageImage c q g →
      pageImage c q' g = img g
  checkpoint : ∀ rc q', pagerCheckpoint c q = (rc, q') → ∀ g, g ≠ 0 → pageImage c q' g = img g
  reopen : ∀ k, LogFile c q.pageSize q.wal.file.bytes (fs ++ gs.take k) →
    ∃ w, walOpen c ⟨q.wal.file.bytes, []⟩ q.pageSize = (.ok, w) ∧
      ∀ g, g ≠ 0 → readPageImage c w q.file g = (.ok, img g)

section

variable {c : Codec} {p q : Pager} {fs gs : List Frame} {tail tail' : Bytes}

theorem CacheInv.withFail (h : CacheInv c p fs tail) (fail : List (Option Nat)) :
    CacheInv c (p.withFail fail) fs tail ∧ (p.withFail fail).store c = p.store c :=
  ⟨⟨h.log.withFile h.log.bytes, h.size, h.size_min, h.size_max, h.nodup, h.lengths, h.clean⟩, rfl⟩

/-! ## Images behind checkpoints and commits -/

section

variable (h : CacheInv c p fs tail) (hc : c.Inverts)

include h hc

theorem CacheInv.checkpointed_image {rc : Status} {wal : Wal} {file : File}
    (hrun : walCheckpoint c p.wal p.file = (rc, wal, file)) (g : UInt32) :
    pageImage c { p with wal := wal, file := file } g = pageImage c p g := by
  have hl : cacheLookup { p with wal := wal, file := file } g = cacheLookup p g := rfl
  unfold pageImage
  rw [hl]
  cases cacheLookup p g with
  | some pg => rfl
  | none => simp only [h.log.checkpoint_read hc hrun, h.log.readImage hc]

theorem CacheInv.checkpoint_image {rc : Status} (hrun : pagerCheckpoint c p = (rc, q)) (g : UInt32) :
    pageImage c q g = pageImage c p g := by
  unfold pagerCheckpoint at hrun
  split at hrun
  · cases hrun
    rfl
  · split at hrun
    · cases hrun
      rfl
    · cases hrun
      exact h.checkpointed_image hc rfl g

/-- A commit changes no image but that of page 1. -/
theorem CacheInv.commit_image (hrun : pagerCommit c p = (.ok, q)) {g : UInt32} (hg : g ≠ 1) :
    pageImage c q g = pageImage c p g := by
  obtain ⟨-, r, hr, hafter⟩ := pagerCommit_ok_inv hrun
  obtain ⟨pages, hspec⟩ := h.commitFramesOf hc hr
  have hread : pageImage c r g = pageImage c p g := by
    rw [hspec.inv.pageImage_eq, hspec.read, Store.read_flush_ne _ hg, h.pageImage_eq]
  rcases hafter with rfl | ⟨rc, wal, file, hckpt, rfl⟩
  · exact hread
  · rw [hspec.inv.checkpointed_image hc hckpt, hread]

end

theorem CacheInv.pageOps (hc : c.Inverts) (ops : List PageOp) : ∀ {p : Pager},
    CacheInv c p fs tail → CacheInv c (ops.foldl (PageOp.run c) p) fs tail := by
  induction ops with
  | nil => exact fun h => h
  | cons op rest ih => exact fun h => ih (h.pageOp hc op).1

/-! ## What is left -/

/-- After a failed commit every page reads as the transaction left it. -/
theorem FailSpec.read (h : FailSpec c p q fs gs tail) (g : UInt32) :
    (q.store c).read g = flushedImage c p g := by
  rw [flushedImage, Store.read, h.dirty, h.base, Store.read]
  cases hd : (p.store c).flush.dirty g with
  | some data => rfl
  | none =>
    rw [if_neg]
    · rfl
    · intro hg
      obtain ⟨f, hf, rfl⟩ := mem_map.mp hg
      rw [h.stores f hf] at hd
      cases hd

theorem CacheInv.commitFramesFor (h : CacheInv c p fs tail) (hc : c.Inverts) :
    ((commitFramesFor c p).map Frame.pgno).Nodup ∧
      ∀ f ∈ commitFramesFor c p, flushedImage c p f.pgno = f.page := by
  obtain ⟨p1, hflush, h1, hstore, -, -⟩ := h.flush hc
  have hstores := h1.storesDirty p1.hdr.dbSize
  unfold Tdb.commitFramesFor
  rw [hflush]
  refine ⟨hstores.nodup, fun f hf => ?_⟩
  rw [flushedImage, ← hstore, Store.read, hstores.dirty f hf]
  rfl

section

variable (h : FailSpec c p q fs gs tail') (hc : c.Inverts) (hinv : CacheInv c p fs tail)

include h hc hinv

/-- The files after a failed commit, wherever recovery stops. -/
theorem FailSpec.recovered (hsame : ∀ g, g ≠ 0 → flushedImage c p g = (p.store c).base g) {k : Nat}
    (hlog : LogFile c q.pageSize q.wal.file.bytes (fs ++ (commitFramesFor c p).take k)) :
    ∃ w, walOpen c ⟨q.wal.file.bytes, []⟩ q.pageSize = (.ok, w) ∧
      ∀ g, g ≠ 0 → readPageImage c w q.file g = (.ok, (p.store c).base g) := by
  have hmax := h.inv.size_max
  obtain ⟨w, tail1, hopen, hrep, -, hsize, -⟩ := hlog.open hc (by omega)
  obtain ⟨hnd, hpages⟩ := hinv.commitFramesFor hc
  have hsub : ((Tdb.commitFramesFor c p).take k).Sublist (Tdb.commitFramesFor c p) :=
    take_sublist _ _
  refine ⟨w, hopen, fun g hg => ?_⟩
  rw [hrep.readImage hc, hsize, h.file, h.pageSize]
  by_cases hmem : g ∈ ((Tdb.commitFramesFor c p).take k).map Frame.pgno
  · obtain ⟨f, hf, rfl⟩ := mem_map.mp hmem
    rw [imageOf_append_of_mem (hnd.sublist (hsub.map _)) hf, ← hpages f (hsub.subset hf),
      hsame f.pgno hg]
  · rw [imageOf_append_of_not_mem hmem, hinv.base_eq hc]

/-- **A failed commit leaves no trace exactly when it would have stored what is stored.** -/
theorem FailSpec.noTrace_iff :
    NoTrace c q fs (commitFramesFor c p) (p.store c).base ↔
      ∀ g, g ≠ 0 → flushedImage c p g = (p.store c).base g := by
  constructor
  · intro htrace g hg
    obtain ⟨q', pg, hget, hdata⟩ := htrace.reads g hg
    rw [pagerGet_image hget, h.inv.pageImage_eq, h.read] at hdata
    exact hdata
  · intro hsame
    have himg : ∀ g, g ≠ 0 → pageImage c q g = (p.store c).base g := by
      intro g hg
      rw [h.inv.pageImage_eq, h.read, hsame g hg]
    refine ⟨fun g hg => ?_, fun q' hroll g hg => ?_, fun ops q' hcommit g hg h1 hkeep => ?_,
      fun rc q' hckpt g hg => ?_, fun k hlog => h.recovered hc hinv hsame hlog⟩
    · obtain ⟨q', pg, hget, -, -, -, -, -, hdata⟩ := h.inv.get hc hg
      refine ⟨q', pg, hget, ?_⟩
      rw [hdata, h.read, hsame g hg]
    · -- the rolled-back images come from the log, with the frames of the failed commit
      obtain ⟨q1, hroll1, hinv1, hstore1, -⟩ := h.inv.rollback hc
      rw [hroll] at hroll1
      cases hroll1
      rw [hinv1.pageImage_eq, hstore1]
      change (q.store c).base g = _
      rw [h.base]
      split
      · exact hsame g hg
      · rfl
    · rw [(CacheInv.pageOps hc ops h.inv).commit_image hc hcommit h1, hkeep, himg g hg]
    · rw [h.inv.checkpoint_image hc hckpt, himg g hg]

end

theorem txnCommit_ioerr_inv {m m' : TxnMgr} {t : Txn} (hw : t.writable = true)
    (hcommit : txnCommit c m t = (.ioerr, m')) :
    commitFramesOf c (setMaxTxnid m.pager t.id) = (.ioerr, m'.pager) := by
  unfold txnCommit at hcommit
  rw [if_pos hw] at hcommit
  cases hrun : pagerCommit c (setMaxTxnid m.pager t.id) with
  | mk rc q =>
    rw [hrun] at hcommit
    cases hcommit
    unfold pagerCommit at hrun
    split at hrun
    · cases hrun
    · split at hrun
      · cases hrun
      · rename_i rc' q' hne heq
        cases hrun
        exact heq

end

/-! ## A commit whose first write fails

In a new database a transaction fills page 2 with ones. -/

section FirstWrite

variable {c : Codec} {p r : Pager} {fs : List Frame} {tail : Bytes}

theorem appendPages_first_write {w : Wal} (h : LogRep c w fs tail) (hfail : w.file.fail = [some 0])
    (dbSize : UInt32) {pages : List (UInt32 × Bytes)} (hne : pages ≠ []) :
    appendPages c w dbSize pages = (.ioerr, { w with file := ⟨w.file.bytes, []⟩ }) := by
  obtain ⟨q, rest, rfl⟩ := exists_cons_of_ne_nil hne
  have hbytes : w.file.bytes = (walHeader w ++ encFrames c w.cfg w.salt1 fs) ++ tail := by
    rw [h.bytes, append_assoc]
  have hwrite : ∀ buf, fileWrite w.file buf (32 + (encFrames c w.cfg w.salt1 fs).length)
      = (.ioerr, ⟨w.file.bytes, []⟩) := by
    intro buf
    have hpre : 32 + (encFrames c w.cfg w.salt1 fs).length
        = (walHeader w ++ encFrames c w.cfg w.salt1 fs).length := by simp
    simp only [fileWrite, hfail, take_zero, hbytes, hpre, writePad_append]
    simp
  unfold appendPages walAppend
  simp only [h.append_offset, hwrite]

/-- The header is flushed into the cache, then the first write fails. -/
theorem CacheInv.commit_first_write (h : CacheInv c p fs tail) (hc : c.Inverts)
    (hro : p.readonly = false) (hfail : p.wal.file.fail = [some 0]) :
    ∃ p1, flushHeader c p = (.ok, p1) ∧ pagerCommit c p = (.ioerr, p1.withFail []) := by
  obtain ⟨p1, hflush, h1, -, hframe, hcount⟩ := h.flush hc
  have hne : committedPages p1 ≠ [] := by
    rw [← length_pos_iff, committedPages, length_map, length_collectDirty, hcount]
    simp only [dirtyMax]
    omega
  have happ := appendPages_first_write h1.log
    (show p1.wal.file.fail = [some 0] by rw [hframe.wal]; exact hfail) p1.hdr.dbSize hne
  refine ⟨p1, hflush, ?_⟩
  unfold committedPages at happ
  unfold pagerCommit Tdb.commitFramesOf
  simp only [hro, Bool.false_eq_true, if_false, hflush, happ]
  rfl

/-- The pager after such a commit is one whose disk never failed. -/
theorem PagerInv.commit_first_write (h : PagerInv c r fs tail) (hc : c.Inverts)
    (hro : r.readonly = false) : ∃ q, pagerCommit c (r.withFail [some 0]) = (.ioerr, q) ∧
      PagerInv c q fs tail ∧ q.store c = (r.store c).flush ∧ q.readonly = false ∧
      q.pageSize = r.pageSize := by
  obtain ⟨hinv, hstore⟩ := h.toCacheInv.withFail [some 0]
  obtain ⟨p1, hflush, hcommit⟩ := hinv.commit_first_write hc hro rfl
  obtain ⟨p1', hflush', h1, hstore1, hframe, -⟩ := hinv.flush hc
  cases hflush.symm.trans hflush'
  obtain ⟨h2, hstore2⟩ := h1.withFail []
  have hwal : (p1.withFail []).wal = r.wal := by
    have hfail := h.wal_fail
    unfold Pager.withFail
    rw [hframe.wal]
    simp only [Pager.withFail]
    rw [← hfail]
  have hd : SameDisk r (p1.withFail []) := ⟨hwal, hframe.file, hframe.readonly, hframe.pageSize⟩
  have hstore' : (p1.withFail []).store c = (r.store c).flush := by
    rw [hstore2, hstore1, hstore]
  refine ⟨_, hcommit, h.of_disk h2 hd ?_ ?_, hstore', hframe.readonly.trans hro, hframe.pageSize⟩
  · rw [hdr_of_store hstore']
    exact h.hdr_size
  · rw [show (p1.withFail []).sps = r.sps from hframe.sps]
    exact h.savepoints

theorem begin_run (c : Codec) (hro : p.readonly = false) :
    PagerOp.begin.run c p = { p with inTxn := true } := by
  change (pagerBegin p).2 = _
  unfold pagerBegin
  rw [if_neg (by simp [hro])]

/-- The transaction: page 2 is allocated and filled. -/
def onesOps : List PagerOp := [.begin, .page .alloc, .page (.write 2 onesImage)]

theorem onesOps_spec (hc : c.Inverts) (h : PagerInv c p fs tail) (hro : p.readonly = false)
    (hps : p.pageSize = 4096) (hhdr : p.hdr = { newHdr 4096 with changeCounter := 1 })
    (hclean : ∀ g, (p.store c).dirty g = none) :
    PagerInv c (runOps c p onesOps) fs tail ∧ (runOps c p onesOps).readonly = false ∧
      (runOps c p onesOps).pageSize = 4096 ∧ (runOps c p onesOps).hdr.dbSize = 2 ∧
      ((runOps c p onesOps).store c).dirty 2 = some onesImage ∧
      ∀ g d, ((runOps c p onesOps).store c).dirty g = some d → g = 2 := by
  obtain ⟨hops, hdisk⟩ := h.ops hc onesOps
  have hbegin := begin_run c hro
  have hcache : CacheInv c { p with inTxn := true } fs tail := h.toCacheInv.congr rfl rfl rfl rfl
  obtain ⟨q, hq, -, -, hhdrq, hnew, hold⟩ := hcache.grow hc hro
    (by rw [show ({ p with inTxn := true } : Pager).hdr = p.hdr from rfl, hhdr]; rfl) (k := 1)
    (by rw [show ({ p with inTxn := true } : Pager).hdr = p.hdr from rfl, hhdr]; rfl)
    (show onesImage.length = _ from length_onesImage.trans hps.symm) 1
  have hrun : runOps c p onesOps = q := by
    rw [← hq, ← hbegin]
    rfl
  refine ⟨hops, hdisk.readonly.trans hro, hdisk.pageSize.trans hps, ?_, ?_, ?_⟩
  · rw [hrun, hhdrq]
    rfl
  · rw [hrun]
    exact hnew 0 (by decide)
  · rw [hrun]
    intro g d hd
    rcases hold g d hd with hd | ⟨-, i, hi, rfl⟩
    · rw [show (({ p with inTxn := true } : Pager).store c).dirty g = (p.store c).dirty g from rfl,
        hclean g] at hd
      cases hd
    · obtain rfl : i = 0 := by omega
      rfl

/-- The failing commit of this transaction, with the state it leaves. -/
theorem onesTxn_fails (hc : c.Inverts) : ∃ p m t m' fs tail,
    pagerOpen c ⟨[], []⟩ ⟨[], []⟩ false = (.ok, p) ∧
      txnBegin c (txnmgrOpen p) .snapshot true = (.ok, m, some t) ∧ t.writable = true ∧
      LogRep c p.wal fs tail ∧ pageImage c p 2 = zeros 4096 ∧
      txnCommit c { m with pager := (runOps c p onesOps).withFail [some 0] } t = (.ioerr, m') ∧
      PagerInv c m'.pager fs tail ∧ m'.pager.readonly = false ∧ m'.pager.pageSize = 4096 ∧
      m'.pager.hdr.dbSize = 2 ∧ (m'.pager.store c).dirty 2 = some onesImage ∧
      ∀ g d, (m'.pager.store c).dirty g = some d → g = 1 ∨ g = 2 := by
  obtain ⟨p, hopen, hro, hps, hhdr, hclean, hbase⟩ := pagerOpen_empty hc
  obtain ⟨fs, tail, hinv⟩ := ((dbFiles_empty c).open hc hopen).1
  obtain ⟨m, t, hbegin, -⟩ := txnBegin_ok (c := c) (m := txnmgrOpen p) hro .snapshot
  have hw := (txnBegin_inv hinv.toCacheInv hbegin).writable
  obtain ⟨hr, hror, hpsr, hdbr, hdr2, hdrall⟩ := onesOps_spec hc hinv hro hps hhdr hclean
  -- recording the id changes the header only
  set r := setMaxTxnid (runOps c p onesOps) t.id with hrdef
  have hr' : PagerInv c r fs tail :=
    (hr.op hc (.page (.setMaxTxnid t.id))).1
  obtain ⟨q, hcommit, hq, hstore, hroq, hpsq⟩ := hr'.commit_first_write hc hror
  have hdirty : ∀ g, g ≠ 1 → (q.store c).dirty g = ((runOps c p onesOps).store c).dirty g := by
    intro g hg
    rw [hstore]
    simp only [Store.flush, Store.write, Store.setHdr, Function.update_of_ne hg]
    rfl
  obtain ⟨m', hm', rfl⟩ : ∃ m', txnCommit c
      { m with pager := (runOps c p onesOps).withFail [some 0] } t = (.ioerr, m') ∧
      m'.pager = q := by
    have hrun : pagerCommit c (setMaxTxnid ((runOps c p onesOps).withFail [some 0]) t.id)
        = (.ioerr, q) := hcommit
    unfold txnCommit
    simp only [hw, if_true, hrun]
    exact ⟨_, rfl, rfl⟩
  refine ⟨p, m, t, m', fs, tail, hopen, hbegin, hw, hinv.log, ?_, hm', hq, hroq, hpsq.trans hpsr,
    ?_, ?_, ?_⟩
  · rw [hinv.toCacheInv.pageImage_eq, Store.read_of_clean (hclean 2)]
    exact hbase 2 (by decide)
  · rw [hdr_of_store hstore]
    exact hdbr
  · rw [hdirty 2 (by decide)]
    exact hdr2
  · intro g d hd
    by_cases hg : g = 1
    · exact Or.inl hg
    · rw [hdirty g hg] at hd
      exact Or.inr (hdrall g d hd)

end FirstWrite

end Tdb
