import TransactionDB.Storage.PagerRuns

/-!
# TransactionDB — the cache on any disk

What holds of the cache whatever the disk does: a page is cached once, and on a read-only
database no page is dirty. Every operation of the pager keeps this, also where it fails. So a
read never changes what the store is, coherent or not.
-/

namespace Tdb

open List

structure CacheOk (p : Pager) : Prop where
  nodup : (p.cache.map Page.pgno).Nodup
  clean : p.readonly = true → ∀ pg ∈ p.cache, pg.dirty = false

/-- A step that keeps the cache in order. -/
def CacheStep (p p' : Pager) : Prop := p'.readonly = p.readonly ∧ (CacheOk p → CacheOk p')

variable {c : Codec} {p p' q : Pager}

theorem CacheStep.refl (p : Pager) : CacheStep p p := ⟨rfl, id⟩

theorem CacheStep.trans (h : CacheStep p p') (h' : CacheStep p' q) : CacheStep p q :=
  ⟨h'.1.trans h.1, fun hok => h'.2 (h.2 hok)⟩

/-- The cache is not touched. -/
theorem cacheStep_same (hcache : p'.cache = p.cache) (hro : p'.readonly = p.readonly) :
    CacheStep p p' :=
  ⟨hro, fun h => ⟨by rw [hcache]; exact h.nodup, by rw [hcache, hro]; exact h.clean⟩⟩

theorem cacheStep_filter {f : Page → Bool} (hcache : p'.cache = p.cache.filter f)
    (hro : p'.readonly = p.readonly) : CacheStep p p' := by
  refine ⟨hro, fun h => ⟨?_, ?_⟩⟩
  · rw [hcache]
    exact Keyed.nodup_filter h.nodup
  · rw [hcache, hro]
    exact fun hr pg hpg => h.clean hr pg (mem_of_mem_filter hpg)

/-- A page is changed in place; on a read-only database none becomes dirty. -/
theorem cacheStep_modify {f : Page → Page} (g : UInt32) (hf : ∀ pg, (f pg).pgno = pg.pgno)
    (hd : p.readonly = true → ∀ pg, (f pg).dirty = pg.dirty) : CacheStep p (cacheModify p g f) := by
  refine ⟨rfl, fun h => ⟨?_, ?_⟩⟩
  · rw [cacheModify, Keyed.map_key_modify hf]
    exact h.nodup
  · intro hr pg hpg
    obtain ⟨pg0, hpg0, rfl⟩ := mem_map.mp hpg
    split
    · rw [hd hr]
      exact h.clean hr pg0 hpg0
    · exact h.clean hr pg0 hpg0

theorem cacheStep_new {pg : Page} (hnone : cacheLookup p pg.pgno = none)
    (hd : p.readonly = true → pg.dirty = false) : CacheStep p (pageNew p pg) := by
  refine ⟨rfl, fun h => ⟨?_, ?_⟩⟩
  · rw [pageNew, map_cons, nodup_cons]
    refine ⟨fun hmem => ?_, h.nodup⟩
    obtain ⟨q, hq, heq⟩ := mem_map.mp hmem
    exact Keyed.find_eq_none_iff.mp hnone q hq heq
  · intro hr q hq
    rcases mem_cons.mp hq with rfl | hq
    · exact hd hr
    · exact h.clean hr q hq

/-! ## Reading -/

theorem readonly_trimLoop (pgnos : List UInt32) : ∀ p, (trimLoop p pgnos).readonly = p.readonly := by
  induction pgnos with
  | nil => exact fun _ => rfl
  | cons g rest ih =>
    intro p
    unfold trimLoop
    split
    · split
      · split
        · exact ih _
        · exact ih _
      · exact ih _
    · rfl

theorem cacheStep_trim (p : Pager) : CacheStep p (cacheTrim p) := by
  refine ⟨readonly_trimLoop _ p, fun h => ?_⟩
  have ht : Trimmed p (cacheTrim p) := trimmed_trimLoop _ h.nodup
  refine ⟨h.nodup.sublist (ht.sublist.map _), ?_⟩
  rw [ht.frame.readonly]
  exact fun hr pg hpg => h.clean hr pg (ht.sublist.subset hpg)

/-- A clean page that was not cached adds nothing to the store. -/
theorem store_new_clean {pg : Page} (hnone : cacheLookup p pg.pgno = none)
    (hclean : pg.dirty = false) : (pageNew p pg).store c = p.store c := by
  have hdirty : ((pageNew p pg).store c).dirty = (p.store c).dirty := by
    funext g
    simp only [Pager.store]
    rw [cacheLookup_new]
    split
    · rename_i heq
      rw [heq, hnone]
      simp [hclean]
    · rfl
  simp only [Pager.store] at *
  rw [hdirty]
  rfl

/-- What a read leaves behind: the page counted once more, a page added, or nothing. -/
inductive Fetched (p : Pager) (g : UInt32) : Pager → Prop where
  | hit : Fetched p g (cacheModify { p with lru := g :: p.lru.filter (fun g' => g' ≠ g) } g
      (fun pg => { pg with refs := pg.refs + 1 }))
  | miss (data : Bytes) (hnone : cacheLookup p g = none) :
      Fetched p g (cacheTrim (pageNew p ⟨g, data, false, 1⟩))
  | failed : Fetched p g p

theorem fetched_get (c : Codec) (p : Pager) (g : UInt32) : Fetched p g (pagerGet c p g).2.1 := by
  unfold pagerGet
  split
  · exact .failed
  · split
    · exact .hit
    · split
      · exact .miss _ ‹_›
      · exact .failed

theorem Fetched.cacheStep {g : UInt32} (h : Fetched p g p') : CacheStep p p' := by
  cases h with
  | hit =>
    refine CacheStep.trans (cacheStep_same ?_ ?_) (cacheStep_modify g ?_ ?_)
    · rfl
    · rfl
    · exact fun _ => rfl
    · exact fun _ _ => rfl
  | miss data hnone => exact (cacheStep_new hnone (fun _ => rfl)).trans (cacheStep_trim _)
  | failed => exact .refl p

theorem Fetched.store {g : UInt32} (h : Fetched p g p') (hok : CacheOk p) :
    p'.store c = p.store c := by
  cases h with
  | hit =>
    refine (store_refs _ g ?_).1.trans ?_
    · exact fun _ => ⟨rfl, rfl, rfl⟩
    · rfl
  | miss data hnone =>
    have hstep : CacheStep p (pageNew p ⟨g, data, false, 1⟩) := cacheStep_new hnone (fun _ => rfl)
    have hnew := hstep.2 hok
    have ht := trimmed_trimLoop (pageNew p ⟨g, data, false, 1⟩).lru.reverse hnew.nodup
    exact (ht.store c).trans (store_new_clean hnone rfl)
  | failed => rfl

theorem cacheStep_get (c : Codec) (p : Pager) (g : UInt32) : CacheStep p (pagerGet c p g).2.1 :=
  (fetched_get c p g).cacheStep

/-- **A read does not change the store**, also if it fails. -/
theorem CacheOk.store_get (h : CacheOk p) (c : Codec) (g : UInt32) :
    (pagerGet c p g).2.1.store c = p.store c :=
  (fetched_get c p g).store h

/-! ## Changing pages -/

theorem cacheStep_unref (p : Pager) (g : UInt32) : CacheStep p (pagerUnref p g) :=
  cacheStep_modify g (fun _ => rfl) (fun _ _ => rfl)

theorem cacheStep_write (p : Pager) (g : UInt32) : CacheStep p (pagerWrite p g).2 := by
  unfold pagerWrite
  split
  · exact .refl p
  · rename_i hro
    exact cacheStep_modify g (fun _ => rfl) (fun hr => absurd hr hro)

theorem cacheStep_setData (p : Pager) (g : UInt32) (data : Bytes) :
    CacheStep p (setData p g data) :=
  cacheStep_modify g (fun _ => rfl) (fun _ _ => rfl)

theorem cacheStep_put (p : Pager) (g : UInt32) (data : Bytes) : CacheStep p (putPage p g data) :=
  ((cacheStep_setData p g data).trans (cacheStep_write _ g)).trans (cacheStep_unref _ g)

theorem cacheStep_setHdr (p : Pager) (hdr : DbHdr) : CacheStep p (p.setHdr hdr) :=
  cacheStep_same rfl rfl

theorem cacheStep_remove (p : Pager) (g : UInt32) : CacheStep p (cacheRemove p g) :=
  cacheStep_filter rfl rfl

theorem cacheStep_allocFree (c : Codec) (p : Pager) : CacheStep p (allocFree c p).2.1 := by
  unfold allocFree
  have hget := cacheStep_get c p p.hdr.freelistHead
  dsimp only
  split
  · exact .refl p
  · split
    · rename_i p1 trunk heq
      rw [heq] at hget
      split
      · exact (hget.trans (cacheStep_put p1 _ _)).trans (cacheStep_setHdr _ _)
      · exact (hget.trans (cacheStep_unref p1 _)).trans (cacheStep_setHdr _ _)
    · rename_i heq
      rw [heq] at hget
      exact hget

theorem cacheStep_alloc (c : Codec) (p : Pager) : CacheStep p (pagerAlloc c p).2.1 := by
  unfold pagerAlloc
  have hfree := cacheStep_allocFree c p
  split
  · exact .refl p
  · rename_i hro
    split
    · rename_i p1 g heq
      rw [heq] at hfree
      have hgrow : CacheStep p (allocGrow p1 g).1 := by
        unfold allocGrow
        split
        · exact hfree.trans (cacheStep_setHdr _ _)
        · exact hfree
      refine (hgrow.trans (cacheStep_remove _ (allocGrow p1 g).2)).trans (cacheStep_new ?_ ?_)
      · rw [cacheLookup_remove, if_pos rfl]
      · exact fun hr => absurd (hgrow.1.symm.trans hr) hro
    · rename_i heq
      rw [heq] at hfree
      exact hfree

theorem cacheStep_freeAsTrunk (c : Codec) (p : Pager) (g : UInt32) :
    CacheStep p (freeAsTrunk c p g).2 := by
  unfold freeAsTrunk
  have hget := cacheStep_get c p g
  split
  · rename_i p1 _ heq
    rw [heq] at hget
    exact (hget.trans (cacheStep_put p1 _ _)).trans (cacheStep_setHdr _ _)
  · rename_i heq
    rw [heq] at hget
    exact hget

theorem cacheStep_free (c : Codec) (p : Pager) (g : UInt32) : CacheStep p (pagerFree c p g).2 := by
  unfold pagerFree
  have hget := cacheStep_get c p p.hdr.freelistHead
  dsimp only
  split
  · exact .refl p
  · split
    · exact .refl p
    · split
      · exact cacheStep_freeAsTrunk c p g
      · split
        · rename_i p1 trunk heq
          rw [heq] at hget
          split
          · exact (hget.trans (cacheStep_put p1 _ _)).trans (cacheStep_setHdr _ _)
          · exact (hget.trans (cacheStep_unref p1 _)).trans (cacheStep_freeAsTrunk c _ g)
        · rename_i heq
          rw [heq] at hget
          exact hget

theorem cacheStep_op (c : Codec) (p : Pager) (op : PageOp) : CacheStep p (op.run c p) := by
  cases op with
  | get g => exact cacheStep_get c p g
  | unref g => exact cacheStep_unref p g
  | write g data =>
    have hwrite := cacheStep_write p g
    simp only [PageOp.run]
    split
    · rename_i p1 heq
      rw [heq] at hwrite
      split
      · exact hwrite.trans (cacheStep_setData p1 g data)
      · exact hwrite
    · rename_i heq
      rw [heq] at hwrite
      exact hwrite
  | alloc => exact cacheStep_alloc c p
  | free g => exact cacheStep_free c p g
  | setMaxTxnid v | setSchemaCookie v | setCatalogRoot g => exact cacheStep_setHdr _ _

theorem cacheStep_ops (c : Codec) (ops : List PageOp) : ∀ p,
    CacheStep p (ops.foldl (PageOp.run c) p) := by
  induction ops with
  | nil => exact fun p => .refl p
  | cons op ops ih => exact fun p => (cacheStep_op c p op).trans (ih _)

/-- A query reads the store and leaves it as it is. -/
theorem CacheOk.store_gets (c : Codec) (pgnos : List UInt32) : ∀ {p : Pager}, CacheOk p →
    ((pgnos.map PageOp.get).foldl (PageOp.run c) p).store c = p.store c := by
  induction pgnos with
  | nil => exact fun _ => rfl
  | cons g pgnos ih =>
    intro p h
    exact (ih ((cacheStep_get c p g).2 h)).trans (h.store_get c g)

/-! ## Transactions -/

theorem cacheStep_begin (p : Pager) : CacheStep p (pagerBegin p).2 := by
  unfold pagerBegin
  split
  · exact .refl p
  · exact cacheStep_same rfl rfl

theorem cacheStep_flushHeader (c : Codec) (p : Pager) (hro : p.readonly = false) :
    CacheStep p (flushHeader c p).2 := by
  unfold flushHeader
  have hget := cacheStep_get c p 1
  split
  · rename_i p1 pg heq
    rw [heq] at hget
    have hro1 : p1.readonly = false := hget.1.trans hro
    set q : Pager := { p1 with hdr := { p1.hdr with changeCounter := p1.hdr.changeCounter + 1 } }
    have hq : CacheStep p q := hget.trans (cacheStep_same rfl rfl)
    have hmark : CacheStep q (cacheModify q 1 (fun r =>
        { r with data := hdrSerialize q.hdr pg.data, dirty := true })) :=
      cacheStep_modify 1 (fun _ => rfl) (fun hr => absurd (hr.symm.trans hro1) (by simp))
    exact ((hq.trans hmark).trans (cacheStep_unref _ 1)).trans (cacheStep_same rfl rfl)
  · rename_i heq
    rw [heq] at hget
    exact hget

theorem cacheStep_markClean (p : Pager) (pgnos : List UInt32) : CacheStep p (markClean p pgnos) := by
  refine ⟨rfl, fun h => ⟨?_, fun hr pg hpg => ?_⟩⟩
  · rw [markClean, Keyed.map_key_map]
    · exact h.nodup
    · intro pg
      split <;> rfl
  · obtain ⟨pg0, hpg0, rfl⟩ := mem_map.mp hpg
    split
    · rfl
    · exact h.clean hr pg0 hpg0

theorem cacheStep_checkpoint (c : Codec) (p : Pager) : CacheStep p (pagerCheckpoint c p).2 := by
  unfold pagerCheckpoint
  split
  · exact .refl p
  · split
    · exact .refl p
    · exact cacheStep_same rfl rfl

theorem cacheStep_commitFrames (c : Codec) (p : Pager) (hro : p.readonly = false) :
    CacheStep p (commitFramesOf c p).2 := by
  unfold commitFramesOf
  have hflush := cacheStep_flushHeader c p hro
  split
  · rename_i p1 heq
    rw [heq] at hflush
    simp only
    split
    · split
      · exact (hflush.trans (cacheStep_same rfl rfl)).trans
          ((cacheStep_markClean _ _).trans (cacheStep_same rfl rfl))
      · exact hflush.trans (cacheStep_same rfl rfl)
    · exact hflush.trans (cacheStep_same rfl rfl)
  · rename_i heq
    rw [heq] at hflush
    exact hflush

theorem cacheStep_commit (c : Codec) (p : Pager) : CacheStep p (pagerCommit c p).2 := by
  unfold pagerCommit
  split
  · exact .refl p
  · rename_i hro
    have hframes := cacheStep_commitFrames c p (by simpa using hro)
    split
    · rename_i p1 heq
      rw [heq] at hframes
      simp only
      split
      · exact hframes.trans (cacheStep_checkpoint c p1)
      · exact hframes
    · rename_i heq
      rw [heq] at hframes
      exact hframes

theorem cacheStep_rollback (c : Codec) (p : Pager) : CacheStep p (pagerRollback c p).2 :=
  cacheStep_filter rfl rfl

theorem cacheStep_savepoint (p : Pager) : CacheStep p (pagerSavepoint p).2 := by
  unfold pagerSavepoint
  split
  · exact .refl p
  · exact cacheStep_same rfl rfl

theorem cacheStep_release (p : Pager) (level : Nat) : CacheStep p (pagerRelease p level).2 := by
  unfold pagerRelease
  split
  · exact .refl p
  · exact cacheStep_same rfl rfl

theorem cacheStep_revert (imgs : List (UInt32 × Bytes)) (pgnos : List UInt32) : ∀ p,
    CacheStep p (pgnos.foldl (revertPage imgs) p) := by
  induction pgnos with
  | nil => exact fun p => .refl p
  | cons g pgnos ih =>
    intro p
    refine CacheStep.trans ?_ (ih _)
    unfold revertPage
    split
    · exact cacheStep_setData p g _
    · exact cacheStep_remove p g

theorem cacheStep_rollbackTo (p : Pager) (level : Nat) : CacheStep p (pagerRollbackTo p level).2 := by
  unfold pagerRollbackTo
  split
  · exact .refl p
  · rename_i sp _
    have hcut : CacheStep p { p with sps := p.sps.take (level + 1) } := cacheStep_same rfl rfl
    have hrevert := hcut.trans
      (cacheStep_revert sp.imgs ((collectDirty p).map (fun pg => pg.pgno)) _)
    exact hrevert.trans (cacheStep_setHdr _ sp.hdr)

/-! ## Vacuum -/

theorem cacheStep_markFree (c : Codec) (fuel : Nat) : ∀ p trunk free,
    CacheStep p (markFree c p fuel trunk free).2.1 := by
  induction fuel with
  | zero => exact fun p _ _ => .refl p
  | succ fuel ih =>
    intro p trunk free
    unfold markFree
    have hget := cacheStep_get c p trunk
    split
    · exact .refl p
    · split
      · rename_i p1 tp heq
        rw [heq] at hget
        exact (hget.trans (cacheStep_unref p1 trunk)).trans (ih _ _ _)
      · rename_i heq
        rw [heq] at hget
        exact hget

theorem cacheStep_freeAll (c : Codec) (pgnos : List UInt32) : ∀ p,
    CacheStep p (freeAll c p pgnos).2 := by
  induction pgnos with
  | nil => exact fun p => .refl p
  | cons g rest ih =>
    intro p
    unfold freeAll
    have hfree := cacheStep_free c p g
    split
    · rename_i p1 heq
      rw [heq] at hfree
      exact hfree.trans (ih p1)
    · rename_i heq
      rw [heq] at hfree
      exact hfree

theorem cacheStep_vacuumShrink (c : Codec) (p : Pager) (kept : List UInt32) (newsize : UInt32) :
    CacheStep p (vacuumShrink c p kept newsize).2 := by
  unfold vacuumShrink
  have hfree := (cacheStep_setHdr p { p.hdr with freelistHead := 0, freelistCount := 0 }).trans
    (cacheStep_freeAll c kept _)
  simp only
  split
  · rename_i p1 heq
    rw [heq] at hfree
    have hcommit := (hfree.trans (cacheStep_setHdr p1 { p1.hdr with dbSize := newsize })).trans
      (cacheStep_commit c _)
    split
    · rename_i p2 heq2
      rw [heq2] at hcommit
      have hcheck := hcommit.trans (cacheStep_checkpoint c p2)
      split
      · rename_i p3 heq3
        rw [heq3] at hcheck
        have hevict : CacheStep p3 (evictAbove p3 newsize) := cacheStep_filter rfl rfl
        exact (hcheck.trans hevict).trans (cacheStep_same rfl rfl)
      · rename_i heq3
        rw [heq3] at hcheck
        exact hcheck
    · rename_i heq2
      rw [heq2] at hcommit
      exact hcommit
  · rename_i heq
    rw [heq] at hfree
    exact hfree.trans (cacheStep_rollback c _)

theorem cacheStep_vacuum (c : Codec) (p : Pager) : CacheStep p (pagerVacuum c p).2 := by
  unfold pagerVacuum
  split
  · exact .refl p
  · split
    · exact .refl p
    · split
      · exact .refl p
      · have hcheck := cacheStep_checkpoint c p
        split
        · rename_i p1 heq
          rw [heq] at hcheck
          have hmark := (hcheck.trans (cacheStep_begin p1)).trans (cacheStep_markFree c (2 ^ 32) _
            (pagerBegin p1).2.hdr.freelistHead [])
          simp only
          split
          · rename_i p2 free heq2
            rw [heq2] at hmark
            split
            · exact hmark.trans (cacheStep_rollback c p2)
            · exact hmark.trans (cacheStep_vacuumShrink c p2 _ _)
          · rename_i heq2
            rw [heq2] at hmark
            exact hmark
          · rename_i heq2
            rw [heq2] at hmark
            exact hmark.trans (cacheStep_rollback c _)
        · rename_i heq
          rw [heq] at hcheck
          exact hcheck

end Tdb
