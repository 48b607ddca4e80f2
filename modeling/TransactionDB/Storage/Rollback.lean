import TransactionDB.Storage.PagerOpen

/-!
# TransactionDB — rollback

`Committed c p hdr`: the pager `p` is between transactions, nothing is dirty, and `hdr` is
the header that the last commit stored. From there a transaction can do anything; rolling
it back gives every page the image it had before, and the header `hdr`. The base of the
store does not change inside a transaction, so the whole proof is that the overlay is
dropped and that the cache stays coherent with the base.
-/

namespace Tdb

open Layout

/-- The pagers between transactions, with the header stored last. -/
inductive Committed (c : Codec) : Pager → DbHdr → Prop where
  /-- After opening, the header is the one in page 1. -/
  | opened (file wal : Bytes) (pageSize : Nat) (fs : List Frame) (readonly : Bool) (p : Pager)
      (hfiles : DbFiles c file wal pageSize fs)
      (hopen : pagerOpen c ⟨file, []⟩ ⟨wal, []⟩ readonly = (.ok, p)) :
      Committed c p (hdrParse (pageImage c p 1))
  /-- A transaction whose commit left no page dirty. -/
  | commit (p p' : Pager) (hdr : DbHdr) (ops : List PagerOp) (hrun : Committed c p hdr)
      (hcommit : pagerCommit c (runOps c p ops) = (.ok, p'))
      (hclean : ∀ pg ∈ p'.cache, pg.dirty = false) : Committed c p' p'.hdr
  /-- A transaction that was rolled back. -/
  | rollback (p : Pager) (hdr : DbHdr) (ops : List PagerOp) (hrun : Committed c p hdr) :
      Committed c (pagerRollback c (runOps c p ops)).2 hdr
  | checkpoint (p : Pager) (hdr : DbHdr) (hrun : Committed c p hdr) :
      Committed c (pagerCheckpoint c p).2 hdr

/-- What holds between transactions. -/
structure CommittedInv (c : Codec) (p : Pager) (hdr : DbHdr) : Prop where
  inv : ∃ fs tail, PagerInv c p fs tail
  clean : ∀ g, (p.store c).dirty g = none
  stored : p.readonly = false →
    hasMagic ((p.store c).base 1) = true ∧ hdrParse ((p.store c).base 1) = hdr

section

variable {c : Codec} {p p' : Pager} {fs : List Frame} {tail : Bytes} {hdr : DbHdr}

/-- A commit that leaves nothing dirty stores the header it wrote. -/
theorem PagerInv.commit_stores (h : PagerInv c p fs tail) (hc : c.Inverts)
    (hcommit : pagerCommit c p = (.ok, p')) (hclean : ∀ pg ∈ p'.cache, pg.dirty = false) :
    CommittedInv c p' p'.hdr := by
  obtain ⟨q, pages, fs', tail', -, hspec, hinv, hstore, -⟩ := h.commit hc hcommit
  have hdirty : ∀ g, (p'.store c).dirty g = none := fun g => dirty_eq_none hclean g
  refine ⟨⟨fs', tail', hinv⟩, hdirty, fun _ => ?_⟩
  have hflush : ∃ data, (p.store c).flush.dirty 1 = some data := by
    simp [Store.flush, Store.write, Store.setHdr]
  obtain ⟨data, hdata⟩ := hflush
  have hread := hspec.read 1
  rw [← hstore, Store.read_of_clean (hdirty 1), Store.read, hdata] at hread
  rw [hread, hdr_of_store hstore]
  change _ ∧ _ = q.hdr
  rw [hspec.hdr]
  exact h.flushed_header hdata

/-- A rollback comes back to the base. -/
theorem CommittedInv.rollback (h : CommittedInv c p hdr) (hc : c.Inverts) (ops : List PagerOp) :
    ∃ p', pagerRollback c (runOps c p ops) = (.ok, p') ∧ CommittedInv c p' hdr ∧
      (p'.store c).base = (p.store c).base ∧ (p.readonly = false → p'.hdr = hdr) := by
  obtain ⟨fs, tail, hinv⟩ := h.inv
  obtain ⟨hops, hdisk⟩ := hinv.ops hc ops
  obtain ⟨p', hrun, hinv', hstore, hdisk'⟩ := hops.rollback hc
  have hbase : (p'.store c).base = (p.store c).base := (hdisk.trans hdisk').base c
  have hro : p'.readonly = p.readonly := (hdisk.trans hdisk').readonly
  refine ⟨p', hrun, ⟨⟨fs, tail, hinv'⟩, fun g => by rw [hstore]; rfl, ?_⟩, hbase, ?_⟩
  · rw [hro, hbase]
    exact h.stored
  · intro hw
    obtain ⟨hmagic, hparse⟩ := h.stored hw
    rw [hdr_of_store hstore]
    change ((runOps c p ops).store c).committedHdr = hdr
    rw [Store.committedHdr, hdisk.base c, if_pos hmagic, hparse]

/-- **Between transactions**, by induction on the history. -/
theorem Committed.inv (hc : c.Inverts) (hrun : Committed c p hdr) : CommittedInv c p hdr := by
  induction hrun with
  | opened file wal pageSize fs readonly p hfiles hopen =>
    obtain ⟨⟨fs', tail, hinv⟩, hclean, -, hstored⟩ := hfiles.open hc hopen
    have hdirty : ∀ g, (p.store c).dirty g = none := fun g => dirty_eq_none hclean g
    refine ⟨⟨fs', tail, hinv⟩, hdirty, fun hro => ⟨(hstored hro).1, ?_⟩⟩
    rw [hinv.toCacheInv.pageImage_eq, Store.read_of_clean (hdirty 1)]
  | commit p p' hdr ops _ hcommit hclean ih =>
    obtain ⟨fs, tail, hinv⟩ := ih.inv
    exact (hinv.ops hc ops).1.commit_stores hc hcommit hclean
  | rollback p hdr ops _ ih =>
    obtain ⟨p', hroll, hinv, -⟩ := ih.rollback hc ops
    rw [hroll]
    exact hinv
  | checkpoint p hdr _ ih =>
    obtain ⟨fs, tail, hinv⟩ := ih.inv
    obtain ⟨p', fs', tail', hckpt, hinv', hstore, hro⟩ := hinv.checkpoint hc
    rw [hckpt]
    refine ⟨⟨fs', tail', hinv'⟩, ?_, ?_⟩
    · rw [hstore]
      exact ih.clean
    · rw [hstore, hro]
      exact ih.stored

/-- A series of reads. -/
def runGets (c : Codec) (p : Pager) (gs : List UInt32) : Pager :=
  runOps c p (gs.map (fun g => .page (.get g)))

theorem CacheInv.gets (hc : c.Inverts) (gs : List UInt32) : ∀ {p : Pager},
    CacheInv c p fs tail → CacheInv c (runGets c p gs) fs tail ∧
      (runGets c p gs).store c = p.store c := by
  induction gs with
  | nil => exact fun h => ⟨h, rfl⟩
  | cons g rest ih =>
    intro p h
    have hstep : CacheInv c ((PagerOp.page (.get g)).run c p) fs tail ∧
        ((PagerOp.page (.get g)).run c p).store c = p.store c := by
      by_cases hg : g = 0
      · have hrun : (PagerOp.page (.get g)).run c p = p := by
          simp [PagerOp.run, PageOp.run, pagerGet, hg]
        rw [hrun]
        exact ⟨h, rfl⟩
      · obtain ⟨p1, pg, hget, hinv, hstore, -⟩ := h.get hc hg
        have hrun : (PagerOp.page (.get g)).run c p = p1 := by
          simp [PagerOp.run, PageOp.run, hget]
        rw [hrun]
        exact ⟨hinv, hstore⟩
    obtain ⟨h1, hstore1⟩ := ih hstep.1
    exact ⟨h1, hstore1.trans hstep.2⟩

/-- **Rollback restores the last committed state**: every page reads as it did right after
the last commit, however often and in whatever order pages are read, and the header is the
one that commit stored. -/
theorem pagerRollback_restores (hc : c.Inverts) {p0 : Pager} (hrun : Committed c p0 hdr)
    (hbegin : pagerBegin p0 = (.ok, p)) (ops : List PagerOp) :
    ∃ p2, pagerRollback c (runOps c p ops) = (.ok, p2) ∧ p2.hdr = hdr ∧
      ∀ (gets : List UInt32) (g : UInt32), g ≠ 0 → ∃ q pg q' pg',
        pagerGet c p0 g = (.ok, q, some pg) ∧
        pagerGet c (runGets c p2 gets) g = (.ok, q', some pg') ∧ pg'.data = pg.data := by
  have h0 := hrun.inv hc
  have hro : p0.readonly = false := by
    unfold pagerBegin at hbegin
    split at hbegin
    · cases hbegin
    · rename_i hw
      simpa using hw
  have hops : runOps c p ops = runOps c p0 (.begin :: ops) := by
    change _ = runOps c (pagerBegin p0).2 ops
    rw [hbegin]
  obtain ⟨p2, hroll, h2, hbase, hhdr⟩ := h0.rollback hc (.begin :: ops)
  rw [← hops] at hroll
  refine ⟨p2, hroll, hhdr hro, fun gets g hg => ?_⟩
  obtain ⟨fs, tail, hinv⟩ := h0.inv
  obtain ⟨fs2, tail2, hinv2⟩ := h2.inv
  obtain ⟨hgets, hsame⟩ := hinv2.toCacheInv.gets hc gets
  obtain ⟨q, pg, hget, -, -, -, -, -, hdata⟩ := hinv.toCacheInv.get hc hg
  obtain ⟨q', pg', hget', -, -, -, -, -, hdata'⟩ := hgets.get hc hg
  refine ⟨q, pg, q', pg', hget, hget', ?_⟩
  rw [hdata, hdata', hsame, Store.read_of_clean (h2.clean g), Store.read_of_clean (h0.clean g),
    hbase]

end

/-- A page allocated in a new database, made its catalog root and rolled back. -/
theorem pagerRollback_restores_new : ∃ p0 p p2,
    pagerOpen Codec.identity ⟨[], []⟩ ⟨[], []⟩ false = (.ok, p0) ∧ pagerBegin p0 = (.ok, p) ∧
      pagerRollback Codec.identity
        (runOps Codec.identity p [.page .alloc, .page (.setCatalogRoot 2)]) = (.ok, p2) ∧
      p2.hdr = hdrParse (pageImage Codec.identity p0 1) := by
  obtain ⟨p0, hopen, hro, -⟩ := pagerOpen_empty Codec.identity_inverts
  have hbegin : pagerBegin p0 = (.ok, { p0 with inTxn := true }) := by
    simp [pagerBegin, hro]
  obtain ⟨p2, hroll, hhdr, -⟩ := pagerRollback_restores Codec.identity_inverts
    (.opened [] [] 4096 [] false p0 (dbFiles_empty _) hopen) hbegin
    [.page .alloc, .page (.setCatalogRoot 2)]
  exact ⟨p0, _, p2, hopen, hbegin, hroll, hhdr⟩

end Tdb
