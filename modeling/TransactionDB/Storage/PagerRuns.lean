import TransactionDB.Storage.CommitComplete
import TransactionDB.Storage.PagerTxn

/-!
# TransactionDB — histories of a pager

`PagerInv` is what holds of a pager on a disk without errors, whatever was done with it:
the cache is coherent, what lies behind the log's end is inert, and the header and all
stored copies of it have the pager's page size. Each client operation, a commit, a
checkpoint and a rollback keep it.
-/

namespace Tdb

open Layout List

/-- The operations of a client inside a transaction. -/
inductive PagerOp where
  | page (op : PageOp)
  | begin
  | savepoint
  | release (level : Nat)
  | rollbackTo (level : Nat)

def PagerOp.run (c : Codec) (p : Pager) : PagerOp → Pager
  | .page op => op.run c p
  | .begin => (pagerBegin p).2
  | .savepoint => (pagerSavepoint p).2
  | .release level => (pagerRelease p level).2
  | .rollbackTo level => (pagerRollbackTo p level).2

def runOps (c : Codec) (p : Pager) (ops : List PagerOp) : Pager := ops.foldl (PagerOp.run c) p

/-- A stored header page: it has the magic and this page size. -/
def IsHeader (pageSize : Nat) (page : Bytes) : Prop :=
  hasMagic page = true ∧ (hdrParse page).pageSize.toNat = pageSize

structure PagerInv (c : Codec) (p : Pager) (fs : List Frame) (tail : Bytes) : Prop
    extends CacheInv c p fs tail where
  sound : TailSound c p.wal.cfg tail
  hdr_size : p.hdr.pageSize.toNat = p.pageSize
  sp_size : ∀ sp ∈ p.sps, sp.hdr.pageSize.toNat = p.pageSize
  sp_images : ∀ sp ∈ p.sps, ∀ g data, sp.image g = some data → data.length = p.pageSize
  frames_hdr : ∀ f ∈ fs, f.pgno = 1 → IsHeader p.pageSize f.page
  file_hdr : hasMagic (dbPage p.file.bytes p.pageSize 1) = true →
    IsHeader p.pageSize (dbPage p.file.bytes p.pageSize 1)
  wal_fail : p.wal.file.fail = []
  file_fail : p.file.fail = []

section Steps

variable {c : Codec} {p p' : Pager} {fs : List Frame} {tail : Bytes}

/-- A step that leaves the files alone. -/
theorem PagerInv.of_disk (h : PagerInv c p fs tail) (hinv : CacheInv c p' fs tail)
    (hd : SameDisk p p') (hhdr : p'.hdr.pageSize.toNat = p.pageSize)
    (hsps : ∀ sp ∈ p'.sps, sp.hdr.pageSize.toNat = p.pageSize ∧
      ∀ g data, sp.image g = some data → data.length = p.pageSize) :
    PagerInv c p' fs tail := by
  refine ⟨hinv, ?_, ?_, ?_, ?_, ?_, ?_, ?_, ?_⟩
  · rw [hd.wal]
    exact h.sound
  · rw [hd.pageSize]
    exact hhdr
  · rw [hd.pageSize]
    exact fun sp hsp => (hsps sp hsp).1
  · rw [hd.pageSize]
    exact fun sp hsp => (hsps sp hsp).2
  · rw [hd.pageSize]
    exact h.frames_hdr
  · rw [hd.pageSize, hd.file]
    exact h.file_hdr
  · rw [hd.wal]
    exact h.wal_fail
  · rw [hd.file]
    exact h.file_fail

theorem PagerInv.savepoints (h : PagerInv c p fs tail) : ∀ sp ∈ p.sps,
    sp.hdr.pageSize.toNat = p.pageSize ∧
      ∀ g data, sp.image g = some data → data.length = p.pageSize :=
  fun sp hsp => ⟨h.sp_size sp hsp, h.sp_images sp hsp⟩

/-- **Every client operation** keeps the invariant and the files. -/
theorem PagerInv.op (h : PagerInv c p fs tail) (hc : c.Inverts) (op : PagerOp) :
    PagerInv c (op.run c p) fs tail ∧ SameDisk p (op.run c p) := by
  cases op with
  | page op =>
    obtain ⟨hinv, hstep⟩ := h.toCacheInv.pageOp hc op
    have hd := hstep.frame.disk
    refine ⟨h.of_disk hinv hd ?_ ?_, hd⟩
    · rw [show ((PagerOp.page op).run c p).hdr.pageSize = p.hdr.pageSize from hstep.hdrSize]
      exact h.hdr_size
    · rw [show ((PagerOp.page op).run c p).sps = p.sps from hstep.frame.sps]
      exact h.savepoints
  | begin =>
    change PagerInv c (pagerBegin p).2 fs tail ∧ SameDisk p (pagerBegin p).2
    unfold pagerBegin
    split
    · exact ⟨h, .refl p⟩
    · exact ⟨h.of_disk (h.congr rfl rfl rfl rfl) ⟨rfl, rfl, rfl, rfl⟩ h.hdr_size h.savepoints,
        ⟨rfl, rfl, rfl, rfl⟩⟩
  | savepoint =>
    change PagerInv c (pagerSavepoint p).2 fs tail ∧ SameDisk p (pagerSavepoint p).2
    unfold pagerSavepoint
    split
    · exact ⟨h, .refl p⟩
    · refine ⟨h.of_disk (h.congr rfl rfl rfl rfl) ⟨rfl, rfl, rfl, rfl⟩ h.hdr_size ?_,
        ⟨rfl, rfl, rfl, rfl⟩⟩
      intro sp hsp
      rcases mem_append.mp hsp with hsp | hsp
      · exact h.savepoints sp hsp
      · rw [mem_singleton.mp hsp]
        refine ⟨h.hdr_size, fun g data hg => h.length_dirty (g := g) ?_⟩
        rw [← h.savepoint_image g]
        exact hg
  | release level =>
    change PagerInv c (pagerRelease p level).2 fs tail ∧ SameDisk p (pagerRelease p level).2
    unfold pagerRelease
    split
    · exact ⟨h, .refl p⟩
    · exact ⟨h.of_disk (h.congr rfl rfl rfl rfl) ⟨rfl, rfl, rfl, rfl⟩ h.hdr_size
        (fun sp hsp => h.savepoints sp (mem_of_mem_take hsp)), ⟨rfl, rfl, rfl, rfl⟩⟩
  | rollbackTo level =>
    cases hsp : p.sps[level]? with
    | none =>
      have hrun : (PagerOp.rollbackTo level).run c p = p := by
        simp [PagerOp.run, pagerRollbackTo, hsp]
      rw [hrun]
      exact ⟨h, .refl p⟩
    | some sp =>
      have hmem := mem_of_getElem? hsp
      obtain ⟨p1, hrun, hinv, hstore, hd, hsps, -⟩ :=
        h.toCacheInv.rollbackTo hsp (h.sp_images sp hmem)
      have hrun' : (PagerOp.rollbackTo level).run c p = p1 := by
        simp [PagerOp.run, hrun]
      rw [hrun']
      refine ⟨h.of_disk hinv hd ?_ ?_, hd⟩
      · rw [hdr_of_store hstore]
        exact h.sp_size sp hmem
      · rw [hsps]
        exact fun sp hsp => h.savepoints sp (mem_of_mem_take hsp)

/-- A run of client operations: by induction on it. -/
theorem PagerInv.ops (hc : c.Inverts) (ops : List PagerOp) : ∀ {p : Pager},
    PagerInv c p fs tail → PagerInv c (runOps c p ops) fs tail ∧ SameDisk p (runOps c p ops) := by
  induction ops with
  | nil => exact fun h => ⟨h, .refl _⟩
  | cons op rest ih =>
    intro p h
    obtain ⟨h1, hd1⟩ := h.op hc op
    obtain ⟨h2, hd2⟩ := ih h1
    exact ⟨h2, hd1.trans hd2⟩

/-! ## Commit, checkpoint, rollback -/

section

variable (h : PagerInv c p fs tail)

include h

/-- The header page a commit writes. -/
theorem PagerInv.flushed_header {data : Bytes} (hdata : (p.store c).flush.dirty 1 = some data) :
    hasMagic data = true ∧ hdrParse data = (p.store c).flush.hdr := by
  simp only [Store.flush, Store.write, Store.setHdr, Function.update_self,
    Option.some.injEq] at hdata
  have hmin := h.size_min
  have hmax := h.size_max
  have hsize : (p.store c).flush.hdr.pageSize.toNat = p.pageSize := h.hdr_size
  rw [← hdata]
  exact ⟨hasMagic_hdrSerialize _ _,
    hdrParse_hdrSerialize _ (by change 0 < (p.store c).flush.hdr.pageSize.toNat; omega)
      (by change (p.store c).flush.hdr.pageSize.toNat ≤ 65536; omega)⟩

/-- A commit up to the automatic checkpoint. -/
theorem PagerInv.commitFramesOf (hc : c.Inverts) {q : Pager} (hrun : commitFramesOf c p = (.ok, q)) :
    ∃ pages, CommitSpec c p q fs tail pages ∧
      PagerInv c q (fs ++ commitFrames q.hdr.dbSize pages)
        (tail.drop (framesSize c p.wal.cfg (commitFrames q.hdr.dbSize pages))) := by
  obtain ⟨pages, hspec⟩ := h.toCacheInv.commitFramesOf hc hrun
  have hpage1 : ∀ q ∈ pages, q.1 = 1 → IsHeader p.pageSize q.2 := by
    intro q hq h1
    have hmem := hspec.pages_mem q hq
    rw [h1] at hmem
    obtain ⟨hmagic, hparse⟩ := h.flushed_header hmem
    exact ⟨hmagic, by rw [hparse]; exact h.hdr_size⟩
  refine ⟨pages, hspec, ⟨hspec.inv, h.sound.commit hspec, ?_, ?_, ?_, ?_, ?_, ?_, ?_⟩⟩
  · rw [hspec.hdr, hspec.pageSize]
    exact h.hdr_size
  · rw [hspec.sps]
    simp
  · rw [hspec.sps]
    simp
  · rw [hspec.pageSize]
    intro f hf h1
    rcases mem_append.mp hf with hf | hf
    · exact h.frames_hdr f hf h1
    · exact hpage1 _ (mem_commitFrames hf) h1
  · rw [hspec.pageSize, hspec.file]
    exact h.file_hdr
  · exact commitFramesOf_fail h.toCacheInv hc h.wal_fail hrun
  · rw [hspec.file]
    exact h.file_fail

/-- A checkpoint succeeds and changes no page. -/
theorem PagerInv.walCheckpoint (hc : c.Inverts) {rc : Status} {wal : Wal} {file : File}
    (hrun : walCheckpoint c p.wal p.file = (rc, wal, file)) :
    rc = .ok ∧ PagerInv c { p with wal := wal, file := file } [] [] ∧
      ({ p with wal := wal, file := file } : Pager).store c = p.store c := by
  obtain ⟨wal', file', hok, hrep, hsize, hfail, hffail, himg⟩ :=
    h.log.checkpoint_ok hc h.wal_fail h.file_fail
  rw [hok] at hrun
  cases hrun
  have hbase : ∀ g, imageOf [] file.bytes p.pageSize g = (p.store c).base g := by
    intro g
    rw [h.base_eq hc, ← h.size, ← himg]
    rfl
  have hread : ∀ g, readPageImage c wal file g = (.ok, (p.store c).base g) := by
    intro g
    rw [hrep.readImage hc, hsize, h.size, hbase]
  have hstore : ({ p with wal := wal, file := file } : Pager).store c = p.store c := by
    have hb : (fun g => (readPageImage c wal file g).2) = (p.store c).base := by
      funext g
      rw [hread]
    simp only [Pager.store] at hb ⊢
    rw [hb]
    rfl
  have hpage : dbPage file.bytes p.pageSize 1 = (p.store c).base 1 := hbase 1
  refine ⟨rfl, ⟨⟨hrep, hsize.trans h.size, h.size_min, h.size_max, h.nodup, h.lengths, ?_⟩,
    tailSound_nil _ _, h.hdr_size, h.sp_size, h.sp_images, by simp, ?_, hfail, hffail⟩, hstore⟩
  · intro g pg hg hd
    rw [hstore]
    exact h.clean g pg hg hd
  · -- the new page 1 of the main file is the log's, or the old one
    change hasMagic (dbPage file.bytes p.pageSize 1) = true →
      IsHeader p.pageSize (dbPage file.bytes p.pageSize 1)
    rw [hpage, h.base_eq hc]
    intro hmagic
    unfold imageOf at hmagic ⊢
    cases himg1 : lastImage fs 1 with
    | some page =>
      obtain ⟨f, hf, h1, rfl⟩ := mem_of_lastImage himg1
      exact h.frames_hdr f hf h1
    | none =>
      rw [himg1] at hmagic
      exact h.file_hdr hmagic

/-- **A commit with its automatic checkpoint** keeps the invariant. -/
theorem PagerInv.commit (hc : c.Inverts) (hrun : pagerCommit c p = (.ok, p')) :
    ∃ q pages fs' tail', Tdb.commitFramesOf c p = (.ok, q) ∧ CommitSpec c p q fs tail pages ∧
      PagerInv c p' fs' tail' ∧ p'.store c = q.store c ∧ ∃ wal file, p' = { q with wal := wal, file := file } := by
  obtain ⟨-, q, hq, hafter⟩ := pagerCommit_ok_inv hrun
  obtain ⟨pages, hspec, hinv⟩ := h.commitFramesOf hc hq
  rcases hafter with rfl | ⟨rc, wal, file, hckpt, rfl⟩
  · exact ⟨p', pages, _, _, hq, hspec, hinv, rfl, p'.wal, p'.file, rfl⟩
  · obtain ⟨-, hinv', hstore⟩ := hinv.walCheckpoint hc hckpt
    exact ⟨q, pages, [], [], hq, hspec, hinv', hstore, wal, file, rfl⟩

/-- A small transaction is committed whole and stays in the log. -/
theorem PagerInv.commit_small (hc : c.Inverts) (hro : p.readonly = false) {S : List UInt32}
    (hS : ∀ g data, (p.store c).dirty g = some data → g ∈ S) (hlt : ∀ g ∈ S, g.toNat < 2 ^ 31)
    (hn : fs.length + S.length < 1000) :
    ∃ q, pagerCommit c p = (.ok, q) ∧ q.wal.nframe ≠ 0 ∧ q.file = p.file ∧
      q.readonly = false ∧ q.pageSize = p.pageSize ∧
      q.store c = ⟨fun _ => none, (p.store c).flush.read, (p.store c).flush.hdr⟩ := by
  obtain ⟨q, hq, -, hrun⟩ := h.toCacheInv.commit_succeeds hc hro h.wal_fail
    (fun g data hg => hlt g (hS g data hg))
  obtain ⟨pages, hspec⟩ := h.toCacheInv.commitFramesOf hc hq
  have hle := h.toCacheInv.otherDirty_le hS
  have hfit : p.otherDirty + 1 ≤ dirtyMax := by
    simp only [dirtyMax]
    omega
  have hframes : q.wal.nframe = fs.length + (p.otherDirty + 1) := by
    rw [hspec.inv.log.nframe, length_append, length_commitFrames, hspec.pages_length,
      Nat.min_eq_right hfit]
  rw [if_neg (by omega)] at hrun
  refine ⟨q, hrun, by omega, hspec.file, hspec.readonly.trans hro, hspec.pageSize, ?_⟩
  have hdirty := hspec.dirty_eq_none hfit
  have hbase : (q.store c).base = (p.store c).flush.read := by
    funext g
    rw [← hspec.read, Store.read, hdirty]
    rfl
  rw [← hbase, ← hspec.hdr, ← funext hdirty]
  rfl

end

section

variable {q : Pager} {pages : List (UInt32 × Bytes)} (hspec : CommitSpec c p q fs tail pages)

include hspec

/-- Where all dirty pages are collected, the header page is among them. -/
theorem CommitSpec.mem_of_fit (hfit : p.otherDirty + 1 ≤ dirtyMax) :
    1 ∈ pages.map Prod.fst := by
  by_contra hnot
  have hdirty := hspec.dirty 1
  rw [if_neg hnot, hspec.dirty_eq_none hfit] at hdirty
  simp [Store.flush, Store.write, Store.setHdr] at hdirty

/-- The header page is stored after a commit, unless it was passed over and never stored. -/
theorem PagerInv.stored_commit (h : PagerInv c p fs tail) (hc : c.Inverts)
    (hor : hasMagic ((p.store c).base 1) = true ∨ p.otherDirty + 1 ≤ dirtyMax) :
    hasMagic ((q.store c).base 1) = true := by
  rw [hspec.base h.toCacheInv hc]
  split
  · have hflush : ∃ data, (p.store c).flush.dirty 1 = some data := by
      simp [Store.flush, Store.write, Store.setHdr]
    obtain ⟨data, hdata⟩ := hflush
    rw [Store.read, hdata]
    exact (h.flushed_header hdata).1
  · rename_i hnot
    rcases hor with hmagic | hfit
    · exact hmagic
    · exact absurd (hspec.mem_of_fit hfit) hnot

end

/-- The main file reaches into page 1, or the log has it: an opened database has its header. -/
def HasPageOne (c : Codec) (p : Pager) : Prop :=
  100 ≤ p.file.bytes.length ∨ (walReadPage c p.wal 1).2 ≠ none

theorem SameDisk.hasPageOne (hd : SameDisk p p') (h : HasPageOne c p) : HasPageOne c p' := by
  unfold HasPageOne
  rw [hd.file, hd.wal]
  exact h

section

variable (h : PagerInv c p fs tail) (hc : c.Inverts)

include h hc

theorem PagerInv.hasPageOne_iff :
    HasPageOne c p ↔ 100 ≤ p.file.bytes.length ∨ lastImage fs 1 ≠ none := by
  unfold HasPageOne
  rw [h.log.readPage hc]

/-- A checkpoint copies page 1 into the main file. -/
theorem PagerInv.checkpoint_hasPageOne {rc : Status} {wal : Wal} {file : File}
    (hrun : Tdb.walCheckpoint c p.wal p.file = (rc, wal, file)) (hone : HasPageOne c p) :
    100 ≤ file.bytes.length := by
  have hmin := h.size_min
  have hsize := h.size
  obtain ⟨hle, hall⟩ := h.log.checkpoint_length hc (by omega) h.file_fail hrun
  rcases (h.hasPageOne_iff hc).mp hone with hlen | hlog
  · omega
  · obtain ⟨page, himg⟩ := Option.ne_none_iff_exists'.mp hlog
    have hend := hall 1 page himg
    omega

/-- A commit keeps page 1, and the first one writes it. -/
theorem PagerInv.commit_hasPageOne (hrun : pagerCommit c p = (.ok, p'))
    (hor : HasPageOne c p ∨ p.otherDirty + 1 ≤ dirtyMax) : HasPageOne c p' := by
  obtain ⟨-, q, hq, hafter⟩ := pagerCommit_ok_inv hrun
  obtain ⟨pages, hspec, hinv⟩ := h.commitFramesOf hc hq
  have hone : HasPageOne c q := by
    rw [hinv.hasPageOne_iff hc, hspec.file, lastImage_append_list]
    by_cases hmem : 1 ∈ pages.map Prod.fst
    · -- page 1 is among the new frames
      right
      have hnew : lastImage (commitFrames q.hdr.dbSize pages) 1 ≠ none := by
        rw [Ne, lastImage_eq_none_iff]
        intro hall
        rw [← commitFrames_pgnos q.hdr.dbSize] at hmem
        obtain ⟨f, hf, h1⟩ := mem_map.mp hmem
        exact hall f hf h1
      obtain ⟨page, hpage⟩ := Option.ne_none_iff_exists'.mp hnew
      simp [hpage]
    · rcases hor with hone | hfit
      · rcases (h.hasPageOne_iff hc).mp hone with hlen | hlog
        · exact Or.inl hlen
        · obtain ⟨page, hpage⟩ := Option.ne_none_iff_exists'.mp hlog
          exact Or.inr (by simp [hpage])
      · exact absurd (hspec.mem_of_fit hfit) hmem
  rcases hafter with rfl | ⟨rc, wal, file, hckpt, rfl⟩
  · exact hone
  · exact Or.inl (hinv.checkpoint_hasPageOne hc hckpt hone)

/-- **A rollback** keeps the invariant. -/
theorem PagerInv.rollback :
    ∃ p', pagerRollback c p = (.ok, p') ∧ PagerInv c p' fs tail ∧
      p'.store c = (p.store c).rollback ∧ SameDisk p p' := by
  obtain ⟨p1, hrun, hinv, hstore, hd, hsps, -⟩ := h.toCacheInv.rollback hc
  refine ⟨p1, hrun, h.of_disk hinv hd ?_ (by rw [hsps]; simp), hstore, hd⟩
  rw [hdr_of_store hstore]
  change (p.store c).committedHdr.pageSize.toNat = _
  unfold Store.committedHdr
  split
  · -- the reloaded header comes from the log or from the main file
    rename_i hmagic
    rw [h.base_eq hc] at hmagic ⊢
    unfold imageOf at hmagic ⊢
    cases himg : lastImage fs 1 with
    | some page =>
      obtain ⟨f, hf, h1, rfl⟩ := mem_of_lastImage himg
      exact (h.frames_hdr f hf h1).2
    | none =>
      rw [himg] at hmagic
      exact (h.file_hdr hmagic).2
  · exact h.hdr_size

end

end Steps

end Tdb
