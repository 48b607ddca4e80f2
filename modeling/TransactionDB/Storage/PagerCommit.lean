import TransactionDB.Storage.PagerOps

/-!
# TransactionDB — committing

`tdb_pager_commit` flushes the header, appends the dirty pages it collects to the log and
marks them clean. What it collects is limited by the size of an array on the stack.

* `CommitSpec`: what a successful commit does, before the automatic checkpoint. The log
  gets one transaction, every page reads as before, the collected pages are clean.
* `FailSpec`: what a commit with a failing write leaves behind.
-/

namespace Tdb

open Layout List

/-! ## The collected pages -/

theorem bucketOrder_perm (cache : List Page) : (bucketOrder cache).Perm cache := by
  have h := Keyed.buckets_perm (fun pg : Page => pg.pgno.toNat % 1024) 1024 cache
  have hall : cache.filter (fun pg => pg.pgno.toNat % 1024 < 1024) = cache := by
    rw [filter_eq_self]
    intro pg _
    simp [Nat.mod_lt]
  rwa [hall] at h

section Collect

variable {p : Pager}

theorem mem_collectDirty {pg : Page} (h : pg ∈ collectDirty p) : pg ∈ p.cache ∧ pg.dirty = true := by
  have hmem := mem_of_mem_take h
  rw [mem_filter] at hmem
  exact ⟨(bucketOrder_perm p.cache).mem_iff.mp hmem.1, hmem.2⟩

theorem nodup_collectDirty (hnd : (p.cache.map Page.pgno).Nodup) :
    ((collectDirty p).map Page.pgno).Nodup := by
  have hperm : ((bucketOrder p.cache).map Page.pgno).Nodup :=
    ((bucketOrder_perm p.cache).map Page.pgno).nodup_iff.mpr hnd
  exact hperm.sublist (((take_sublist _ _).trans filter_sublist).map _)

theorem length_collectDirty :
    (collectDirty p).length = min dirtyMax (p.cache.filter (fun pg => pg.dirty)).length := by
  have hperm := (bucketOrder_perm p.cache).filter (fun pg => pg.dirty)
  rw [collectDirty, length_take, hperm.length_eq]

/-- The page with a collected number is the collected page. -/
theorem collectDirty_of_pgno (hnd : (p.cache.map Page.pgno).Nodup) {g : UInt32} {pg : Page}
    (hg : g ∈ (collectDirty p).map Page.pgno) (hlook : cacheLookup p g = some pg) :
    pg ∈ collectDirty p := by
  obtain ⟨q, hq, rfl⟩ := mem_map.mp hg
  have hq' := Keyed.find_of_mem hnd (mem_collectDirty hq).1
  rw [cacheLookup, hq'] at hlook
  cases hlook
  exact hq

theorem cacheLookup_markClean (pgnos : List UInt32) (g : UInt32) :
    cacheLookup (markClean p pgnos) g = (cacheLookup p g).map
      (fun pg => if pg.pgno ∈ pgnos then { pg with dirty := false } else pg) := by
  apply Keyed.find_map
  intro pg
  split <;> rfl

/-- Marking the collected pages clean leaves the others dirty. -/
theorem dirty_markClean (hnd : (p.cache.map Page.pgno).Nodup) :
    ((markClean p ((collectDirty p).map Page.pgno)).cache.filter (fun pg => pg.dirty)).length
      = (p.cache.filter (fun pg => pg.dirty)).length - (collectDirty p).length := by
  set all := (bucketOrder p.cache).filter (fun pg => pg.dirty) with hall
  set S := (collectDirty p).map Page.pgno with hS
  have hperm : all.Perm (p.cache.filter (fun pg => pg.dirty)) := (bucketOrder_perm p.cache).filter _
  have hsplit : all = collectDirty p ++ all.drop dirtyMax := (take_append_drop _ _).symm
  have hndall : (all.map Page.pgno).Nodup :=
    (((bucketOrder_perm p.cache).map Page.pgno).nodup_iff.mpr hnd).sublist
      (filter_sublist.map _)
  -- the pages still dirty are those that were not collected
  have hrest : all.filter (fun pg => pg.pgno ∉ S) = all.drop dirtyMax := by
    conv_lhs => rw [hsplit]
    rw [hsplit, map_append, nodup_append] at hndall
    rw [filter_append, filter_eq_nil_iff.mpr, nil_append, filter_eq_self]
    · intro pg hpg
      simp only [decide_not, Bool.not_eq_true', decide_eq_false_iff_not]
      intro hmem
      exact hndall.2.2 _ hmem _ (mem_map_of_mem hpg) rfl
    · intro pg hpg
      simp [hS, mem_map_of_mem hpg]
  have hcount : ((markClean p S).cache.filter (fun pg => pg.dirty)).length
      = ((p.cache.filter (fun pg => pg.dirty)).filter (fun pg => pg.pgno ∉ S)).length := by
    rw [markClean, filter_map, length_map, filter_filter]
    refine congrArg List.length (filter_congr (fun pg _ => ?_))
    by_cases hpg : pg.pgno ∈ S <;> simp [hpg]
  rw [hcount, ← (hperm.filter _).length_eq, hrest, ← hperm.length_eq, length_drop,
    length_collectDirty, ← hperm.length_eq]
  omega

end Collect

/-! ## Frames appended to a log -/

section Images

variable {fs gs : List Frame}

theorem imageOf_append_of_mem (hnd : (gs.map Frame.pgno).Nodup) {f : Frame} (hf : f ∈ gs)
    (db : Bytes) (pageSize : Nat) : imageOf (fs ++ gs) db pageSize f.pgno = f.page := by
  rw [imageOf, lastImage_append_list, lastImage_of_mem hnd hf]
  rfl

theorem imageOf_append_of_not_mem {g : UInt32} (hg : g ∉ gs.map Frame.pgno) (db : Bytes)
    (pageSize : Nat) : imageOf (fs ++ gs) db pageSize g = imageOf fs db pageSize g := by
  have hnone : lastImage gs g = none := by
    rw [lastImage_eq_none_iff]
    rintro f hf rfl
    exact hg (mem_map_of_mem hf)
  rw [imageOf, lastImage_append_list, hnone]
  rfl

theorem commitFrames_pgnos (dbSize : UInt32) (pages : List (UInt32 × Bytes)) :
    (commitFrames dbSize pages).map Frame.pgno = pages.map Prod.fst := by
  conv_rhs => rw [← commitFrames_pages dbSize pages]
  simp

end Images

/-! ## The log grows by dirty pages -/

section Appended

variable {c : Codec} {p : Pager} {fs gs : List Frame} {tail tail' : Bytes} {w : Wal}

/-- Each of these frames stores a dirty page, none of them twice. -/
structure StoresDirty (c : Codec) (p : Pager) (gs : List Frame) : Prop where
  nodup : (gs.map Frame.pgno).Nodup
  dirty : ∀ f ∈ gs, (p.store c).dirty f.pgno = some f.page

theorem StoresDirty.take (h : StoresDirty c p gs) (k : Nat) : StoresDirty c p (gs.take k) :=
  ⟨h.nodup.sublist ((take_sublist k gs).map _), fun f hf => h.dirty f (mem_of_mem_take hf)⟩

section

variable (h : CacheInv c p fs tail) (hc : c.Inverts) (hlog : LogRep c w (fs ++ gs) tail')
  (hcfg : w.cfg = p.wal.cfg) (hgs : StoresDirty c p gs)

include h hc hlog hcfg hgs

/-- The base over the longer log: the stored pages, and the old base elsewhere. -/
theorem CacheInv.base_appended (g : UInt32) : (({ p with wal := w } : Pager).store c).base g
      = if g ∈ gs.map Frame.pgno then (p.store c).read g else (p.store c).base g := by
  have hps : w.pageSize = p.pageSize := (Wal.pageSize_of_cfg hcfg).trans h.size
  have hbase : (({ p with wal := w } : Pager).store c).base g
      = imageOf (fs ++ gs) p.file.bytes p.pageSize g := by
    simp only [Pager.store, hlog.readImage hc, hps]
  rw [hbase]
  split
  · rename_i hg
    obtain ⟨f, hf, rfl⟩ := mem_map.mp hg
    rw [imageOf_append_of_mem hgs.nodup hf, Store.read, hgs.dirty f hf]
    rfl
  · rename_i hg
    rw [imageOf_append_of_not_mem hg, h.base_eq hc]

/-- The cache is coherent with the longer log: a clean page is not among the stored ones. -/
theorem CacheInv.appended :
    CacheInv c { p with wal := w } (fs ++ gs) tail' := by
  refine ⟨hlog, (Wal.pageSize_of_cfg hcfg).trans h.size, h.size_min, h.size_max, h.nodup,
    h.lengths, ?_⟩
  intro g pg hg hd
  have hl : cacheLookup p g = some pg := hg
  rw [h.base_appended hc hlog hcfg hgs, if_neg]
  · exact h.clean g pg hl hd
  · intro hmem
    obtain ⟨f, hf, rfl⟩ := mem_map.mp hmem
    obtain ⟨pg', hl', hd', -⟩ := lookup_of_dirty (hgs.dirty f hf)
    rw [hl] at hl'
    cases hl'
    rw [hd] at hd'
    cases hd'

end

/-- Pages that are in the base can be marked clean. -/
theorem CacheInv.markedClean (h : CacheInv c p fs tail) {S : List UInt32}
    (hS : ∀ g ∈ S, (p.store c).read g = (p.store c).base g) :
    CacheInv c (markClean p S) fs tail ∧ ∀ g, ((markClean p S).store c).dirty g
      = if g ∈ S then none else (p.store c).dirty g := by
  constructor
  · refine h.of_lookups ⟨rfl, rfl, rfl, rfl, rfl, rfl⟩ ?_ ?_
    · have hkeys : (markClean p S).cache.map Page.pgno = p.cache.map Page.pgno := by
        apply Keyed.map_key_map
        intro pg
        split <;> rfl
      rw [hkeys]
      exact h.nodup
    · intro g pg hg
      rw [cacheLookup_markClean] at hg
      obtain ⟨pg0, hl, rfl⟩ := Option.map_eq_some_iff.mp hg
      have hkey : pg0.pgno = g := Keyed.key_of_find hl
      rw [hkey]
      split
      · rename_i hmem
        refine Or.inr ⟨h.lengths g pg0 hl, fun _ => ?_⟩
        rw [← hS g hmem]
        exact (h.read_of_lookup hl).symm
      · exact Or.inl hl
  · intro g
    simp only [Pager.store, cacheLookup_markClean]
    cases hl : cacheLookup p g with
    | none => simp
    | some pg =>
      have hkey : pg.pgno = g := Keyed.key_of_find hl
      by_cases hg : g ∈ S <;> simp [hkey, hg]

end Appended

/-! ## What a commit does -/

/-- The pages a commit appends, in order. -/
def committedPages (p : Pager) : List (UInt32 × Bytes) :=
  (collectDirty p).map (fun pg => (pg.pgno, pg.data))

theorem committedPages_fst (p : Pager) :
    (committedPages p).map Prod.fst = (collectDirty p).map Page.pgno := by
  simp [committedPages]

section

variable {c : Codec} {p : Pager} {fs : List Frame} {tail : Bytes} (h : CacheInv c p fs tail)

include h

theorem CacheInv.dirty_committedPages {q : UInt32 × Bytes} (hq : q ∈ committedPages p) :
    (p.store c).dirty q.1 = some q.2 := by
  obtain ⟨pg, hpg, rfl⟩ := mem_map.mp hq
  obtain ⟨hin, hd⟩ := mem_collectDirty hpg
  exact dirty_of_lookup (Keyed.find_of_mem h.nodup hin) hd

theorem CacheInv.storesDirty (dbSize : UInt32) :
    StoresDirty c p (commitFrames dbSize (committedPages p)) := by
  refine ⟨?_, fun f hf => h.dirty_committedPages (mem_commitFrames hf)⟩
  rw [commitFrames_pgnos, committedPages_fst]
  exact nodup_collectDirty h.nodup

end

/-- A successful commit, step by step. -/
theorem commitFramesOf_ok_inv {c : Codec} {p p' : Pager} (hrun : commitFramesOf c p = (.ok, p')) :
    ∃ p1 wal file, flushHeader c p = (.ok, p1) ∧
      appendPages c p1.wal p1.hdr.dbSize (committedPages p1) = (.ok, wal) ∧
      file.bytes = wal.file.bytes ∧ (wal.file.fail = [] → file.fail = []) ∧
      p' = { markClean { p1 with wal := { wal with file := file } }
              ((collectDirty p1).map Page.pgno) with inTxn := false, sps := [] } := by
  unfold commitFramesOf at hrun
  split at hrun
  · rename_i p1 hflush
    simp only at hrun
    split at hrun
    · rename_i wal happ
      split at hrun
      · rename_i file hsync
        cases hrun
        refine ⟨p1, wal, file, hflush, happ, ?_, ?_, rfl⟩
        · split at hsync
          · cases hsync
            rfl
          · exact fileSync_bytes hsync
        · intro hfail
          split at hsync
          · cases hsync
            exact hfail
          · rw [fileSync_ok hfail] at hsync
            cases hsync
            exact hfail
      · rename_i rc file hne hsync
        cases hrun
        exact absurd rfl hne
    · rename_i rc wal hne happ
      cases hrun
      exact absurd rfl hne
  · rename_i rc p1 hne hflush
    cases hrun
    exact absurd rfl hne

/-- What a successful commit does, up to the automatic checkpoint: it appends the `pages` as
one transaction. -/
structure CommitSpec (c : Codec) (p p' : Pager) (fs : List Frame) (tail : Bytes)
    (pages : List (UInt32 × Bytes)) : Prop where
  inv : CacheInv c p' (fs ++ commitFrames p'.hdr.dbSize pages)
    (tail.drop (framesSize c p.wal.cfg (commitFrames p'.hdr.dbSize pages)))
  hdr : p'.hdr = (p.store c).flush.hdr
  read : ∀ g, (p'.store c).read g = (p.store c).flush.read g
  pages_mem : ∀ q ∈ pages, (p.store c).flush.dirty q.1 = some q.2
  dirty : ∀ g, (p'.store c).dirty g
    = if g ∈ pages.map Prod.fst then none else (p.store c).flush.dirty g
  pages_length : pages.length = min dirtyMax (p.otherDirty + 1)
  left : (p'.cache.filter (fun pg => pg.dirty)).length = p.otherDirty + 1 - pages.length
  cfg : p'.wal.cfg = p.wal.cfg
  file : p'.file = p.file
  pageSize : p'.pageSize = p.pageSize
  readonly : p'.readonly = p.readonly
  sps : p'.sps = []
  inTxn : p'.inTxn = false

theorem CommitSpec.pages_ne {c : Codec} {p p' : Pager} {fs : List Frame} {tail : Bytes}
    {pages : List (UInt32 × Bytes)} (h : CommitSpec c p p' fs tail pages) : pages ≠ [] := by
  intro hnil
  have hlen := h.pages_length
  rw [hnil] at hlen
  simp only [dirtyMax, length_nil] at hlen
  omega

section

variable {c : Codec} {p q : Pager} {fs : List Frame} {tail : Bytes} {pages : List (UInt32 × Bytes)}

theorem TailSound.commit (hsound : TailSound c p.wal.cfg tail)
    (hspec : CommitSpec c p q fs tail pages) :
    TailSound c q.wal.cfg
      (tail.drop (framesSize c p.wal.cfg (commitFrames q.hdr.dbSize pages))) := by
  rw [hspec.cfg]
  refine hsound.drop (fun hv => framesSize_v1_dvd hv (fun f hf => ?_))
  have := hspec.inv.log.pages f (mem_append_right _ hf)
  rw [this, Wal.pageSize_of_cfg hspec.cfg]
  rfl

/-- The base after a commit: the committed pages over the old base. -/
theorem CommitSpec.base (hspec : CommitSpec c p q fs tail pages) (h : CacheInv c p fs tail)
    (hc : c.Inverts) (g : UInt32) : (q.store c).base g
      = if g ∈ pages.map Prod.fst then (p.store c).flush.read g else (p.store c).base g := by
  by_cases hg : g ∈ pages.map Prod.fst
  · have hread := hspec.read g
    rw [Store.read, hspec.dirty, if_pos hg] at hread
    rw [if_pos hg]
    exact hread
  · rw [if_neg hg, hspec.inv.base_eq hc, imageOf_append_of_not_mem (by rwa [commitFrames_pgnos]),
      hspec.file, hspec.pageSize, ← h.base_eq hc]

end

/-- **A successful commit** appends the collected pages as one transaction. -/
theorem CacheInv.commitFramesOf {c : Codec} {p p' : Pager} {fs : List Frame} {tail : Bytes}
    (h : CacheInv c p fs tail) (hc : c.Inverts) (hrun : commitFramesOf c p = (.ok, p')) :
    ∃ pages, CommitSpec c p p' fs tail pages := by
  obtain ⟨p1, wal, file, hflush, happ, hbytes, -, rfl⟩ := commitFramesOf_ok_inv hrun
  obtain ⟨p1', hflush', h1, hstore, hframe, hcount⟩ := h.flush hc
  cases hflush.symm.trans hflush'
  set S := (collectDirty p1).map Page.pgno with hS
  set pages := committedPages p1 with hpages
  have hfst : pages.map Prod.fst = S := committedPages_fst p1
  have hdirty : ∀ q ∈ pages, (p1.store c).dirty q.1 = some q.2 :=
    fun q hq => h1.dirty_committedPages hq
  have hlens : ∀ q ∈ pages, q.2.length = p1.wal.pageSize :=
    fun q hq => (h1.length_dirty (hdirty q hq)).trans h1.size.symm
  -- the log grows by the collected pages
  obtain ⟨hlog, hcfg, -⟩ := h1.log.appendPages hlens happ
  have hlog2 : LogRep c { wal with file := file } (fs ++ commitFrames p1.hdr.dbSize pages)
      (tail.drop (framesSize c p1.wal.cfg (commitFrames p1.hdr.dbSize pages))) :=
    hlog.withFile (by rw [hbytes]; exact hlog.bytes)
  have hgs := h1.storesDirty p1.hdr.dbSize
  set p2 : Pager := { p1 with wal := { wal with file := file } } with hp2
  have h2 : CacheInv c p2 _ _ := h1.appended hc hlog2 hcfg hgs
  have hread2 : ∀ g, (p2.store c).read g = (p1.store c).read g := by
    intro g
    change ((p1.store c).dirty g).getD ((p2.store c).base g) = _
    rw [h1.base_appended hc hlog2 hcfg hgs g]
    cases hd : (p1.store c).dirty g with
    | some data => simp [Store.read, hd]
    | none =>
      rw [commitFrames_pgnos, if_neg, Store.read, hd]
      intro hg
      obtain ⟨q, hq, rfl⟩ := mem_map.mp hg
      rw [hdirty q hq] at hd
      cases hd
  -- then they are clean
  have hmark : ∀ g ∈ S, (p2.store c).read g = (p2.store c).base g := by
    intro g hg
    rw [hread2, h1.base_appended hc hlog2 hcfg hgs g, commitFrames_pgnos, hfst, if_pos hg]
  obtain ⟨h3, hdirty3⟩ := h2.markedClean hmark
  refine ⟨pages, ?_, ?_, ?_, ?_, ?_, ?_, ?_, ?_, ?_, ?_, ?_, rfl, rfl⟩
  · rw [hframe.wal] at h3
    exact h3.congr rfl rfl rfl rfl
  · change p1.hdr = _
    exact hdr_of_store hstore
  · intro g
    rw [← hstore, ← hread2 g]
    change (((markClean p2 S).store c).dirty g).getD ((p2.store c).base g) = _
    rw [hdirty3]
    split
    · rename_i hg
      exact (hmark g hg).symm
    · rfl
  · intro q hq
    rw [← hstore]
    exact hdirty q hq
  · intro g
    rw [hfst, ← hstore]
    exact hdirty3 g
  · rw [hpages, committedPages, length_map, length_collectDirty, hcount]
  · have hleft := dirty_markClean h1.nodup
    rw [hcount] at hleft
    rw [hpages, committedPages, length_map]
    exact hleft
  · exact hcfg.trans (congrArg Wal.cfg hframe.wal)
  · exact hframe.file
  · exact hframe.pageSize
  · exact hframe.readonly

/-! ## Failing writes -/

/-- A commit in which a write or the sync failed, step by step. -/
theorem commitFramesOf_error_inv {c : Codec} {p p1 q : Pager} (hflush : flushHeader c p = (.ok, p1))
    (hrun : commitFramesOf c p = (.ioerr, q)) :
    ∃ rc wal file, appendPages c p1.wal p1.hdr.dbSize (committedPages p1) = (rc, wal) ∧
      (rc = .ok ∨ rc = .ioerr) ∧ file.bytes = wal.file.bytes ∧
      q = { p1 with wal := { wal with file := file } } := by
  unfold commitFramesOf at hrun
  rw [hflush] at hrun
  simp only at hrun
  split at hrun
  · rename_i wal happ
    split at hrun
    · cases hrun
    · rename_i rc file hne hsync
      cases hrun
      refine ⟨.ok, wal, file, happ, Or.inl rfl, ?_, rfl⟩
      split at hsync
      · cases hsync
      · exact fileSync_bytes hsync
  · rename_i rc wal hne happ
    cases hrun
    exact ⟨.ioerr, wal, wal.file, happ, Or.inr rfl, rfl, rfl⟩

/-- What a commit leaves that failed in a write or in the sync: the log has grown by some of
its frames, and the dirty pages are still dirty. -/
structure FailSpec (c : Codec) (p q : Pager) (fs gs : List Frame) (tail : Bytes) : Prop where
  inv : CacheInv c q (fs ++ gs) tail
  stores : ∀ f ∈ gs, (p.store c).flush.dirty f.pgno = some f.page
  dirty : (q.store c).dirty = (p.store c).flush.dirty
  hdr : q.hdr = (p.store c).flush.hdr
  base : ∀ g, (q.store c).base g
    = if g ∈ gs.map Frame.pgno then (p.store c).flush.read g else (p.store c).base g
  file : q.file = p.file
  pageSize : q.pageSize = p.pageSize
  readonly : q.readonly = p.readonly
  sps : q.sps = p.sps

theorem CacheInv.commit_error {c : Codec} {p q : Pager} {fs : List Frame} {tail : Bytes}
    (h : CacheInv c p fs tail) (hc : c.Inverts) (hrun : Tdb.commitFramesOf c p = (.ioerr, q)) :
    ∃ gs tail', FailSpec c p q fs gs tail' := by
  obtain ⟨p1, hflush, h1, hstore, hframe, -⟩ := h.flush hc
  obtain ⟨rc, wal, file, happ, hrc, hbytes, rfl⟩ := commitFramesOf_error_inv hflush hrun
  have hlens : ∀ q ∈ committedPages p1, q.2.length = p1.wal.pageSize :=
    fun q hq => (h1.length_dirty (h1.dirty_committedPages hq)).trans h1.size.symm
  -- some first frames are in the log; all of them if only the sync failed
  obtain ⟨k, tail', hlog, hcfg⟩ : ∃ k tail', LogRep c wal
      (fs ++ (commitFrames p1.hdr.dbSize (committedPages p1)).take k) tail' ∧
      wal.cfg = p1.wal.cfg := by
    rcases hrc with rfl | rfl
    · obtain ⟨hlog, hcfg, -⟩ := h1.log.appendPages hlens happ
      exact ⟨_, _, by rw [take_length]; exact hlog, hcfg⟩
    · exact h1.log.appendPages_error hlens happ
  set gs := (commitFrames p1.hdr.dbSize (committedPages p1)).take k with hgs
  have hlog' : LogRep c { wal with file := file } (fs ++ gs) tail' :=
    hlog.withFile (by rw [hbytes]; exact hlog.bytes)
  have hstores : StoresDirty c p1 gs := (h1.storesDirty p1.hdr.dbSize).take k
  refine ⟨gs, tail', h1.appended hc hlog' hcfg hstores, ?_, ?_, ?_, ?_, hframe.file,
    hframe.pageSize, hframe.readonly, hframe.sps⟩
  · rw [← hstore]
    exact hstores.dirty
  · rw [← hstore]
    rfl
  · change p1.hdr = _
    exact hdr_of_store hstore
  · intro g
    rw [h1.base_appended hc hlog' hcfg hstores g, hstore]
    rfl

/-! ## Commits on a disk without errors -/

theorem commitFramesOf_fail {c : Codec} {p q : Pager} {fs : List Frame} {tail : Bytes}
    (h : CacheInv c p fs tail) (hc : c.Inverts) (hfail : p.wal.file.fail = [])
    (hrun : commitFramesOf c p = (.ok, q)) : q.wal.file.fail = [] := by
  obtain ⟨p1, wal, file, hflush, happ, -, hfile, rfl⟩ := commitFramesOf_ok_inv hrun
  obtain ⟨p1', hflush', -, -, hframe, -⟩ := h.flush hc
  cases hflush.symm.trans hflush'
  have hafter := appendPages_fail (c := c) p1.hdr.dbSize (committedPages p1)
    (show p1.wal.file.fail = [] by rw [hframe.wal]; exact hfail)
  rw [happ] at hafter
  exact hfile hafter

/-- Without disk errors a commit of pages below `2 ^ 31` succeeds. -/
theorem CacheInv.commit_succeeds {c : Codec} {p : Pager} {fs : List Frame} {tail : Bytes}
    (h : CacheInv c p fs tail) (hc : c.Inverts) (hro : p.readonly = false)
    (hfail : p.wal.file.fail = [])
    (hpg : ∀ g data, (p.store c).dirty g = some data → g.toNat < 2 ^ 31) :
    ∃ q, Tdb.commitFramesOf c p = (.ok, q) ∧ q.wal.file.fail = [] ∧
      pagerCommit c p = (.ok, if q.wal.nframe > 1000 then (pagerCheckpoint c q).2 else q) := by
  obtain ⟨p1, hflush, h1, hstore, hframe, -⟩ := h.flush hc
  have hpages : ∀ q ∈ committedPages p1, q.1.toNat < 2 ^ 31 := by
    intro q hq
    have hdirty := h1.dirty_committedPages hq
    rw [hstore] at hdirty
    by_cases hone : q.1 = 1
    · simp [hone]
    · refine hpg q.1 q.2 ?_
      rw [← hdirty]
      simp [Store.flush, Store.write, Store.setHdr, Function.update_of_ne hone]
  have hfail1 : p1.wal.file.fail = [] := by
    rw [hframe.wal]
    exact hfail
  obtain ⟨w', happ, hfail'⟩ := appendPages_succeeds (c := c) p1.hdr.dbSize hfail1 hpages
  have hsync : (if collectDirty p1 = [] then (Status.ok, w'.file) else fileSync w'.file)
      = (.ok, w'.file) := by
    split
    · rfl
    · exact fileSync_ok hfail'
  have hrun : Tdb.commitFramesOf c p = (.ok, { markClean { p1 with wal := { w' with file := w'.file } }
      ((collectDirty p1).map Page.pgno) with inTxn := false, sps := [] }) := by
    unfold committedPages at happ
    simp only [Tdb.commitFramesOf, hflush, happ, hsync]
  refine ⟨_, hrun, hfail', ?_⟩
  unfold pagerCommit
  simp only [hro, Bool.false_eq_true, if_false, hrun]

end Tdb
