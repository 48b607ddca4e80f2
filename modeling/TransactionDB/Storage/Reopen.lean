import TransactionDB.Storage.PagerOpen

/-!
# TransactionDB — reopening after a crash

The header lives in page 1, and after a commit the newest copy of page 1 is in the log. But
`tdb_pager_open` parses the header of the main file where there is one, and takes only the
database size from the log. So a crash reopen restores the committed header exactly when the
copy in the main file happens to agree with it; a stale free list then hands out pages
that are in use.
-/

namespace Tdb

open Layout

/-! ## Pages in use -/

/-- A page on the free list that starts at a trunk. -/
inductive OnFreeList (img : UInt32 → Bytes) : UInt32 → UInt32 → Prop where
  | trunk (t : UInt32) (ht : t ≠ 0) : OnFreeList img t t
  | leaf (t i : UInt32) (ht : t ≠ 0) (hi : i < trunkCount (img t)) :
      OnFreeList img t (trunkLeaf (img t) i)
  | next (t g : UInt32) (ht : t ≠ 0) (hg : OnFreeList img (trunkNext (img t)) g) :
      OnFreeList img t g

theorem OnFreeList.ne_zero {img : UInt32 → Bytes} {t g : UInt32} (h : OnFreeList img t g) : t ≠ 0 := by
  cases h <;> assumption

/-- A page of the database that is not on its free list. -/
def InUse (img : UInt32 → Bytes) (hdr : DbHdr) (g : UInt32) : Prop :=
  g ≠ 0 ∧ g ≤ hdr.dbSize ∧ ¬ OnFreeList img hdr.freelistHead g

theorem Store.allocFree_onFreeList (s : Store) (h : s.allocFree.1 ≠ 0) :
    OnFreeList s.read s.hdr.freelistHead s.allocFree.1 := by
  unfold Store.allocFree at h ⊢
  dsimp only at h ⊢
  split at h
  · exact absurd rfl h
  · rename_i hhead
    rw [if_neg hhead]
    split at h
    · rename_i hcount
      rw [if_pos hcount]
      refine .leaf _ _ hhead ?_
      have hpred := toNat_pred hcount
      rw [UInt32.lt_iff_toNat_lt]
      omega
    · rename_i hcount
      rw [if_neg hcount]
      exact .trunk _ hhead

/-- An allocation never returns a page in use. -/
theorem Store.alloc_not_inUse (s : Store) (pageSize : Nat) :
    ¬ InUse s.read s.hdr (s.alloc pageSize).1 := by
  rintro ⟨hne, hle, hfree⟩
  by_cases h0 : s.allocFree.1 = 0
  · -- the page behind the end
    have hgrow : (s.alloc pageSize).1 = s.hdr.dbSize + 1 := by
      have hhdr : s.allocFree.2.hdr.dbSize = s.hdr.dbSize := by
        unfold Store.allocFree
        dsimp only
        split
        · rfl
        · split <;> rfl
      simp only [Store.alloc, Store.allocGrow, h0, if_true, hhdr]
    rw [hgrow] at hne hle
    rw [UInt32.le_iff_toNat_le, UInt32.toNat_add] at hle
    refine hne (UInt32.toNat_inj.mp ?_)
    rw [UInt32.toNat_add]
    have hlt := s.hdr.dbSize.toNat_lt
    simp at hle ⊢
    omega
  · have hpage : (s.alloc pageSize).1 = s.allocFree.1 := by
      simp only [Store.alloc, Store.allocGrow, h0, if_false]
    rw [hpage] at hfree
    exact hfree (s.allocFree_onFreeList h0)

/-! ## The reopened header -/

/-- The header fields of page 1 that a reopen has to restore, besides the database size. -/
structure SameFields (a b : DbHdr) : Prop where
  freelistHead : a.freelistHead = b.freelistHead
  freelistCount : a.freelistCount = b.freelistCount
  catalogRoot : a.catalogRoot = b.catalogRoot
  schemaCookie : a.schemaCookie = b.schemaCookie
  maxTxnid : a.maxTxnid = b.maxTxnid

/-- The pager `p2`, reopened after a crash, continues from the committed state of `p1`. -/
structure Restored (c : Codec) (p1 p2 : Pager) : Prop where
  dbSize : p2.hdr.dbSize = p1.hdr.dbSize
  fields : SameFields p2.hdr p1.hdr
  alloc : ∀ p3 pg, pagerAlloc c p2 = (.ok, p3, some pg) →
    ¬ InUse (p1.store c).base p1.hdr pg.pgno

variable {c : Codec} {p p1 : Pager} {fs : List Frame} {tail : Bytes} {h0 : DbHdr}

/-- While the log has frames after a commit, that commit's are its last. -/
theorem PagerInv.commit_logged (h : PagerInv c p fs tail) (hc : c.Inverts)
    (hcommit : pagerCommit c p = (.ok, p1)) (hwal : p1.wal.nframe ≠ 0)
    (hdb : p1.hdr.dbSize ≠ 0) :
    ∃ fs1 tail1, PagerInv c p1 fs1 tail1 ∧ Sealed fs1 ∧ lastDbSize fs1 = p1.hdr.dbSize := by
  obtain ⟨-, q, hq, hafter⟩ := pagerCommit_ok_inv hcommit
  obtain ⟨pages, hspec, hinv⟩ := h.commitFramesOf hc hq
  rcases hafter with rfl | ⟨rc, wal, file, hckpt, rfl⟩
  · obtain ⟨hsealed, hlast⟩ := sealed_commit hdb fs hspec.pages_ne
    exact ⟨_, _, hinv, hsealed, hlast⟩
  · -- a checkpoint would have emptied the log
    obtain ⟨-, hinv', -⟩ := hinv.walCheckpoint hc hckpt
    exact absurd hinv'.log.nframe hwal

/-- Reopening the files of a pager with a sealed log, over a main file with a header. -/
theorem PagerInv.reopen (h : PagerInv c p fs tail) (hc : c.Inverts) (hsealed : Sealed fs)
    (hlast : lastDbSize fs = p.hdr.dbSize) (hdb : p.hdr.dbSize ≠ 0)
    (hmain : fileHdr p.file = some h0) :
    ∃ p2, pagerOpen c ⟨p.file.bytes, []⟩ ⟨p.wal.file.bytes, []⟩ false = (.ok, p2) ∧
      (∃ tail2, CacheInv c p2 fs tail2) ∧ p2.readonly = false ∧
      p2.store c = ⟨fun _ => none, (p.store c).base, { h0 with dbSize := p.hdr.dbSize }⟩ := by
  have hmin := h.size_min
  obtain ⟨w, tail2, hopen, -, hrep, -, hcfg, hwdb⟩ := h.log.reopen hc hsealed h.sound
  have hwsize : w.pageSize = p.pageSize := (Wal.pageSize_of_cfg hcfg).trans h.size
  have hmain' : fileHdr ⟨p.file.bytes, []⟩ = some h0 := hmain
  obtain ⟨hmagic, hparse⟩ := fileHdr_eq_some (show 100 ≤ p.pageSize by omega) hmain
  have hsize : openPageSize ⟨p.file.bytes, []⟩ ⟨p.wal.file.bytes, []⟩ = p.wal.pageSize := by
    rw [openPageSize, hmain', h.size]
    simp only [← hparse]
    exact (h.file_hdr hmagic).2
  have hinv := cacheInv_newPager hrep (by rw [hwsize]; exact h.size_min)
    (by rw [hwsize]; exact h.size_max) ⟨p.file.bytes, []⟩ false { h0 with dbSize := p.hdr.dbSize }
  refine ⟨_, ?_, ⟨tail2, hinv⟩, rfl, ?_⟩
  · unfold pagerOpen
    simp only [hsize, hopen, hmain', Option.some_or, hwdb, hlast, if_pos hdb]
  · have hbase : (Pager.store c (newPager ⟨p.file.bytes, []⟩ w false
        { h0 with dbSize := p.hdr.dbSize })).base = (p.store c).base := by
      funext g
      rw [hinv.base_eq hc, h.base_eq hc]
      exact congrArg (fun n => imageOf fs p.file.bytes n g) hwsize
    rw [← hbase]
    rfl

/-- **A crash reopen restores the committed header exactly when the main file's copy agrees
with it.** Here `p` is any reachable pager, `p1` the pager after its next commit, with frames
still in the log. -/
theorem reopen_restores_iff (hc : c.Inverts) (hrun : PagerRun c p)
    (hcommit : pagerCommit c p = (.ok, p1)) (hwal : p1.wal.nframe ≠ 0)
    (hdb : p1.hdr.dbSize ≠ 0) (hmain : fileHdr p1.file = some h0) :
    ∃ p2, pagerOpen c ⟨p1.file.bytes, []⟩ ⟨p1.wal.file.bytes, []⟩ false = (.ok, p2) ∧
      (Restored c p1 p2 ↔ SameFields h0 p1.hdr) := by
  obtain ⟨fs, tail, h⟩ := hrun.inv hc
  obtain ⟨fs1, tail1, h1, hsealed, hlast⟩ := h.commit_logged hc hcommit hwal hdb
  obtain ⟨p2, hopen, ⟨tail2, hinv⟩, hro, hstore⟩ := h1.reopen hc hsealed hlast hdb hmain
  have hhdr : p2.hdr = { h0 with dbSize := p1.hdr.dbSize } := hdr_of_store hstore
  refine ⟨p2, hopen, ?_, ?_⟩
  · rintro ⟨-, hfields, -⟩
    rw [hhdr] at hfields
    exact ⟨hfields.freelistHead, hfields.freelistCount, hfields.catalogRoot,
      hfields.schemaCookie, hfields.maxTxnid⟩
  · intro hsame
    refine ⟨by rw [hhdr], ?_, ?_⟩
    · rw [hhdr]
      exact ⟨hsame.freelistHead, hsame.freelistCount, hsame.catalogRoot, hsame.schemaCookie,
        hsame.maxTxnid⟩
    · intro p3 pg halloc huse
      obtain ⟨p3', halloc', -⟩ := hinv.alloc hc hro
      rw [halloc] at halloc'
      cases halloc'
      -- nothing is cached, so the free list is read from the committed images
      have hnot := (p2.store c).alloc_not_inUse p2.pageSize
      have hread : (p2.store c).read = (p1.store c).base := by
        rw [hstore]
        rfl
      rw [hread] at hnot
      refine hnot ⟨huse.1, ?_, ?_⟩
      · have hsize : (p2.store c).hdr.dbSize = p1.hdr.dbSize := by rw [hstore]
        rw [hsize]
        exact huse.2.1
      · have hhead : (p2.store c).hdr.freelistHead = p1.hdr.freelistHead := by
          rw [hstore]
          exact hsame.freelistHead
        rw [hhead]
        exact huse.2.2

/-! ## A page allocated twice

The main file has two pages of 512 bytes: the header, and page 2, which is free. -/

def twoPageHdr : DbHdr := { newHdr 512 with dbSize := 2, freelistHead := 2, freelistCount := 1 }

def twoPageMain : Bytes := hdrSerialize twoPageHdr (zeros 512) ++ emptyTrunk 512 0

theorem length_hdrPage : (hdrSerialize twoPageHdr (zeros 512)).length = 512 := by
  rw [length_hdrSerialize (by simp), length_zeros]

theorem dbPage_twoPageMain_one : dbPage twoPageMain 512 1 = hdrSerialize twoPageHdr (zeros 512) := by
  have hlen := length_hdrPage
  have hpage := slice_zero_length (hdrSerialize twoPageHdr (zeros 512))
  rw [hlen] at hpage
  rw [dbPage, show dbOffset 512 1 = 0 from rfl,
    readPad_eq_slice 0 (by rw [twoPageMain, List.length_append, hlen]; omega), twoPageMain,
    slice_append_left (by rw [hlen]), hpage]

theorem dbPage_twoPageMain_two : dbPage twoPageMain 512 2 = emptyTrunk 512 0 := by
  have hlen := length_hdrPage
  have htrunk := length_emptyTrunk (le_refl 512) 0
  have hpage := slice_zero_length (emptyTrunk 512 0)
  rw [htrunk] at hpage
  rw [dbPage, show dbOffset 512 2 = 512 from rfl,
    readPad_eq_slice 0 (by rw [twoPageMain, List.length_append, hlen, htrunk]), twoPageMain,
    slice_append_right (by rw [hlen]), hlen, Nat.sub_self, hpage]

theorem fileHdr_twoPageMain : fileHdr ⟨twoPageMain, []⟩ = some twoPageHdr := by
  have hlen : 100 ≤ twoPageMain.length := by
    rw [twoPageMain, List.length_append, length_hdrPage]
    omega
  unfold fileHdr
  simp only [probe_eq (show 100 ≤ 512 by decide), hasMagic_take, hdrParse_take,
    dbPage_twoPageMain_one, hasMagic_hdrSerialize, hlen, and_self, if_true]
  rw [hdrParse_hdrSerialize _ (by decide) (by decide)]

theorem twoPage_files : DbFiles Codec.identity twoPageMain [] 512 [] := by
  refine ⟨by decide, by decide, ?_, .short [] (by decide), by simp, fun _ => ?_⟩
  · rw [openPageSize, fileHdr_twoPageMain]
    rfl
  · rw [dbPage_twoPageMain_one]
    refine ⟨hasMagic_hdrSerialize _ _, ?_⟩
    rw [hdrParse_hdrSerialize _ (by decide) (by decide)]
    rfl

/-- The pager opened over these files. -/
theorem twoPage_open : ∃ p, pagerOpen Codec.identity ⟨twoPageMain, []⟩ ⟨[], []⟩ false = (.ok, p) ∧
    p.readonly = false ∧ p.file.bytes = twoPageMain ∧ p.pageSize = 512 ∧ p.wal.nframe = 0 ∧
    (∃ tail, PagerInv Codec.identity p [] tail) ∧
    p.store Codec.identity = ⟨fun _ => none, dbPage twoPageMain 512, twoPageHdr⟩ := by
  obtain ⟨w, tail, hopen, hrep, hsound, hsize, hdb, hfail⟩ :=
    twoPage_files.log.open Codec.identity_inverts (by decide)
  have hdb0 : w.dbSize = 0 := hdb
  have hinv := cacheInv_newPager hrep (by omega) (by omega) ⟨twoPageMain, []⟩ false twoPageHdr
  refine ⟨newPager ⟨twoPageMain, []⟩ w false twoPageHdr, ?_, rfl, rfl, hsize, hrep.nframe,
    ⟨tail, hinv, hsound, ?_, by simp [newPager], by simp [newPager], by simp, ?_, hfail, rfl⟩, ?_⟩
  · unfold pagerOpen
    simp only [twoPage_files.size, hopen, fileHdr_twoPageMain, Option.some_or, hdb0, ne_eq,
      not_true_eq_false, if_false]
  · exact hsize.symm
  · rw [show (newPager ⟨twoPageMain, []⟩ w false twoPageHdr).pageSize = 512 from hsize]
    exact twoPage_files.file_hdr
  · have hbase : (Pager.store Codec.identity (newPager ⟨twoPageMain, []⟩ w false twoPageHdr)).base
        = dbPage twoPageMain 512 := by
      funext g
      rw [hinv.base_eq Codec.identity_inverts]
      exact congrArg (fun n => dbPage twoPageMain n g) hsize
    rw [← hbase]
    rfl

/-- Nothing but the change counter is committed: the reopened header is the committed one. -/
theorem reopen_restores_unchanged : ∃ p p1 p2,
    pagerOpen Codec.identity ⟨twoPageMain, []⟩ ⟨[], []⟩ false = (.ok, p) ∧
      pagerCommit Codec.identity p = (.ok, p1) ∧
      pagerOpen Codec.identity ⟨p1.file.bytes, []⟩ ⟨p1.wal.file.bytes, []⟩ false = (.ok, p2) ∧
      Restored Codec.identity p1 p2 := by
  obtain ⟨p, hopen, hro, hfile, -, -, ⟨tail, hinv⟩, hstore⟩ := twoPage_open
  obtain ⟨p1, hcommit, hwal, hfile1, -, -, hstore1⟩ := hinv.commit_small Codec.identity_inverts hro
    (S := []) (by rw [hstore]; simp) (by simp) (by simp)
  have hhdr : p1.hdr = { twoPageHdr with changeCounter := 1 } := by
    rw [hdr_of_store hstore1, hstore]
    rfl
  have hmain : fileHdr p1.file = some twoPageHdr := by
    unfold fileHdr fileRead
    rw [hfile1, hfile]
    exact fileHdr_twoPageMain
  obtain ⟨p2, hreopen, hiff⟩ := reopen_restores_iff Codec.identity_inverts
    (.opened twoPageMain [] 512 [] false p twoPage_files hopen) hcommit hwal
    (by rw [hhdr]; decide) hmain
  refine ⟨p, p1, p2, hopen, hcommit, hreopen, hiff.mpr ?_⟩
  rw [hhdr]
  exact ⟨rfl, rfl, rfl, rfl, rfl⟩

/-- Page 2 is taken off the free list, made the catalog root and committed. After a crash the
reopened header has neither change: the catalog root is 0, and page 2 is allocated again. -/
theorem reopen_allocates_twice : ∃ p0 p1 p2 p3 p4 pg pg',
    pagerOpen Codec.identity ⟨twoPageMain, []⟩ ⟨[], []⟩ false = (.ok, p0) ∧
      pagerAlloc Codec.identity p0 = (.ok, p1, some pg) ∧
      pagerCommit Codec.identity (setCatalogRoot p1 pg.pgno) = (.ok, p2) ∧
      p2.wal.nframe ≠ 0 ∧ p2.hdr.catalogRoot = 2 ∧
      pagerOpen Codec.identity ⟨p2.file.bytes, []⟩ ⟨p2.wal.file.bytes, []⟩ false = (.ok, p3) ∧
      p3.hdr.catalogRoot = 0 ∧ pagerAlloc Codec.identity p3 = (.ok, p4, some pg') ∧
      pg'.pgno = 2 ∧ InUse (p2.store Codec.identity).base p2.hdr 2 := by
  have hc := Codec.identity_inverts
  obtain ⟨p0, hopen, hro, hfile, hps, -, ⟨tail, hinv⟩, hstore⟩ := twoPage_open
  -- the allocation takes the trunk, page 2
  obtain ⟨p1, halloc, -, hstore1, hframe1⟩ := hinv.toCacheInv.alloc hc hro
  have hread2 : (p0.store Codec.identity).read 2 = emptyTrunk 512 0 := by
    rw [hstore]
    exact dbPage_twoPageMain_two
  have hhead : (p0.store Codec.identity).hdr.freelistHead = 2 := by
    rw [hstore]
    rfl
  have hcase := (p0.store Codec.identity).alloc_trunk p0.pageSize (by rw [hhead]; decide)
    (by rw [hhead, hread2, trunkCount_emptyTrunk (le_refl _)])
  rw [hhead, hread2, trunkNext_emptyTrunk (le_refl _)] at hcase
  rw [hcase] at halloc hstore1
  simp only at halloc hstore1
  -- the commit of pages 1 and 2
  obtain ⟨hinv1, -⟩ := hinv.op hc (.page .alloc)
  rw [show (PagerOp.page .alloc).run Codec.identity p0 = p1 by
    simp [PagerOp.run, PageOp.run, halloc]] at hinv1
  obtain ⟨hinv2, -⟩ := hinv1.op hc (.page (.setCatalogRoot 2))
  change PagerInv Codec.identity (setCatalogRoot p1 2) [] tail at hinv2
  have hstore1' : (setCatalogRoot p1 2).store Codec.identity
      = (p1.store Codec.identity).setHdr { p1.hdr with catalogRoot := 2 } := rfl
  have hhdr1 := hdr_of_store hstore1
  rw [hstore1, hstore] at hstore1'
  obtain ⟨p2, hcommit, hwal, hfile2, -, -, hstore2⟩ := hinv2.commit_small hc
    (show (setCatalogRoot p1 2).readonly = false from hframe1.readonly.trans hro) (S := [2])
    (by
      intro g data hg
      rw [hstore1'] at hg
      by_cases h2 : g = 2
      · simp [h2]
      · simp [Store.setHdr, Store.write, Function.update_of_ne h2] at hg)
    (by simp) (by simp)
  have hhdr2 : p2.hdr = { twoPageHdr with
      freelistHead := 0, freelistCount := 0, catalogRoot := 2, changeCounter := 1 } := by
    rw [hdr_of_store hstore2, hstore1', hhdr1, hstore]
    rfl
  have hbase2 : (p2.store Codec.identity).base 2 = zeros 512 := by
    rw [hstore2, hstore1', ← hps]
    rfl
  -- the reopened pager still has page 2 as its first trunk
  have hdb : p2.hdr.dbSize ≠ 0 := by
    rw [hhdr2]
    decide
  have hmain : fileHdr p2.file = some twoPageHdr := by
    unfold fileHdr fileRead
    rw [hfile2, show (setCatalogRoot p1 2).file = p0.file from hframe1.file, hfile]
    exact fileHdr_twoPageMain
  obtain ⟨fs2, tail2, hp2, hsealed, hlast⟩ := hinv2.commit_logged hc hcommit hwal hdb
  obtain ⟨p3, hreopen, ⟨tail3, hinv3⟩, hro3, hstore3⟩ := hp2.reopen hc hsealed hlast hdb hmain
  obtain ⟨p4, halloc4, -⟩ := hinv3.alloc hc hro3
  have hcase3 := (p3.store Codec.identity).alloc_trunk p3.pageSize
    (by rw [hstore3]; exact (by decide : twoPageHdr.freelistHead ≠ 0))
    (by
      rw [hstore3]
      change trunkCount ((p2.store Codec.identity).base 2) = 0
      rw [hbase2]
      exact getU32_zeros 512 5)
  refine ⟨p0, p1, p2, p3, p4, _, _, hopen, halloc, hcommit, hwal, by rw [hhdr2], hreopen, ?_,
    halloc4, ?_, ?_⟩
  · rw [hdr_of_store hstore3]
    rfl
  · rw [hcase3, hstore3]
    rfl
  · rw [hhdr2]
    refine ⟨by decide, by decide, ?_⟩
    exact fun hfree => hfree.ne_zero rfl

/-- A read, or a checkpoint. -/
def quietStep (c : Codec) (p : Pager) : Option UInt32 → Pager
  | some g => (pagerGet c p g).2.1
  | none => (pagerCheckpoint c p).2

/-- **Reads and checkpoints change no page**, in any order. -/
theorem pagerGet_quiet (hc : c.Inverts) (hrun : PagerRun c p) (steps : List (Option UInt32))
    {g : UInt32} (hg : g ≠ 0) :
    ∃ q pg, pagerGet c (steps.foldl (quietStep c) p) g = (.ok, q, some pg) ∧
      pg.data = (p.store c).read g := by
  induction steps generalizing p with
  | nil =>
    obtain ⟨fs, tail, h⟩ := hrun.inv hc
    obtain ⟨q, pg, hget, -, -, -, -, -, hdata⟩ := h.toCacheInv.get hc hg
    exact ⟨q, pg, hget, hdata⟩
  | cons s steps ih =>
    obtain ⟨fs, tail, h⟩ := hrun.inv hc
    cases s with
    | none =>
      obtain ⟨p', -, -, hckpt, -, hstore, -⟩ := h.checkpoint hc
      rw [← hstore, show p' = (pagerCheckpoint c p).2 by rw [hckpt]]
      exact ih (.checkpoint p hrun)
    | some a =>
      have hstore : (pagerGet c p a).2.1.store c = p.store c := by
        by_cases ha : a = 0
        · simp [pagerGet, ha]
        · obtain ⟨p', pg, hget, -, hstore, -⟩ := h.toCacheInv.get hc ha
          rw [hget, hstore]
      rw [← hstore]
      exact ih (.op p (.page (.get a)) hrun)

theorem pagerGet_quiet_two : ∃ p q pg,
    pagerGet .identity ([some 1].foldl (quietStep .identity) p) 2 = (.ok, q, some pg) ∧
      pg.data = emptyTrunk 512 0 := by
  obtain ⟨p, hopen, -, -, -, -, -, hstore⟩ := twoPage_open
  obtain ⟨q, pg, hget, hdata⟩ := pagerGet_quiet Codec.identity_inverts
    (.opened _ _ _ _ _ p twoPage_files hopen) [some 1] (g := 2) (by decide)
  rw [hstore] at hdata
  exact ⟨p, q, pg, hget, hdata.trans dbPage_twoPageMain_two⟩

end Tdb
