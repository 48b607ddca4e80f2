import TransactionDB.Storage.PagerRep

/-!
# TransactionDB — the pager's operations refine the store's

Allocation, freeing and flushing the header, each as a total-correctness statement: on a
coherent writable pager the operation succeeds, keeps coherence and does to the store what
the operation of the same name does there.
-/

namespace Tdb

open Layout List

variable {c : Codec} {p : Pager} {fs : List Frame} {tail : Bytes}

variable {S : List UInt32}

theorem hdr_of_store {p' : Pager} {s : Store} (h : p'.store c = s) : p'.hdr = s.hdr := by
  rw [← h]
  rfl

section

variable (h : CacheInv c p fs tail)

include h

/-- Taking a page off the free list. -/
theorem CacheInv.allocFree (hc : c.Inverts) (hro : p.readonly = false) :
    ∃ p', allocFree c p = (.ok, p', (p.store c).allocFree.1) ∧ CacheInv c p' fs tail ∧
      p'.store c = (p.store c).allocFree.2 ∧ SameFrame p p' := by
  unfold Tdb.allocFree Store.allocFree
  have hhead : (p.store c).hdr.freelistHead = p.hdr.freelistHead := rfl
  simp only [hhead]
  by_cases h0 : p.hdr.freelistHead = 0
  · simp only [if_pos h0]
    exact ⟨p, rfl, h, rfl, .refl p⟩
  · simp only [if_neg h0]
    obtain ⟨p1, trunk, hget, h1, hstore, hframe, -, hlook, hdata⟩ := h.get hc h0
    have hro1 : p1.readonly = false := hframe.readonly.trans hro
    simp only [hget, hdata]
    split
    · -- the last leaf of the trunk
      have hlen : (splice ((p.store c).read p.hdr.freelistHead) 5
          (putU32 (trunkCount ((p.store c).read p.hdr.freelistHead) - 1))).length = p1.pageSize := by
        have hread := h.length_read hc p.hdr.freelistHead
        have hmin := h.size_min
        rw [length_splice (by simp; omega), hread, hframe.pageSize]
      obtain ⟨h2, hstore2, hframe2⟩ := h1.putPage hlook hlen hro1
      rw [hstore] at hstore2
      have hhdr2 := hdr_of_store hstore2
      refine ⟨_, rfl, h2.setHdr _, ?_, hframe.trans (hframe2.trans (sameFrame_setHdr _))⟩
      rw [store_setHdr, hstore2, hhdr2]
      rfl
    · -- the trunk itself
      obtain ⟨h2, hstore2⟩ := h1.unref p.hdr.freelistHead
      rw [hstore] at hstore2
      have hhdr2 := hdr_of_store hstore2
      refine ⟨_, rfl, h2.setHdr _, ?_, hframe.trans ((sameFrame_modify _ _).trans (sameFrame_setHdr _))⟩
      rw [store_setHdr, hstore2, hhdr2]

theorem CacheInv.allocGrow (g : UInt32) :
    CacheInv c (allocGrow p g).1 fs tail ∧ SameFrame p (Tdb.allocGrow p g).1 ∧
      (Tdb.allocGrow p g).2 = ((p.store c).allocGrow g).1 ∧
      (Tdb.allocGrow p g).1.store c = ((p.store c).allocGrow g).2 := by
  unfold Tdb.allocGrow Store.allocGrow
  by_cases h0 : g = 0
  · rw [if_pos h0, if_pos h0]
    exact ⟨h.setHdr _, sameFrame_setHdr _, rfl, rfl⟩
  · rw [if_neg h0, if_neg h0]
    exact ⟨h, .refl p, rfl, rfl⟩

/-- A new dirty page in place of whatever was cached under its number. -/
theorem CacheInv.replace (pg : Page) (hlen : pg.data.length = p.pageSize) (hd : pg.dirty = true) :
    CacheInv c (pageNew (cacheRemove p pg.pgno) pg) fs tail ∧
      (pageNew (cacheRemove p pg.pgno) pg).store c = (p.store c).write pg.pgno pg.data ∧
      SameFrame p (pageNew (cacheRemove p pg.pgno) pg) := by
  have hnone : cacheLookup (cacheRemove p pg.pgno) pg.pgno = none := by
    rw [cacheLookup_remove, if_pos rfl]
  have hinv := (h.remove pg.pgno).new hnone hlen (fun hclean => by rw [hd] at hclean; cases hclean)
  refine ⟨hinv, ?_, (sameFrame_remove _).trans (sameFrame_new _)⟩
  have hdirty : ((pageNew (cacheRemove p pg.pgno) pg).store c).dirty
      = ((p.store c).write pg.pgno pg.data).dirty := by
    funext g
    simp only [Pager.store, Store.write]
    rw [cacheLookup_new, cacheLookup_remove]
    by_cases hg : g = pg.pgno
    · subst hg
      simp [hd]
    · rw [if_neg hg, if_neg hg, Function.update_of_ne hg]
  simp only [Pager.store, Store.write] at *
  rw [hdirty]
  rfl

/-- **`tdb_pager_alloc` refines the store's allocation.** -/
theorem CacheInv.alloc (hc : c.Inverts) (hro : p.readonly = false) :
    ∃ p', pagerAlloc c p
        = (.ok, p', some ⟨((p.store c).alloc p.pageSize).1, zeros p.pageSize, true, 1⟩) ∧
      CacheInv c p' fs tail ∧ p'.store c = ((p.store c).alloc p.pageSize).2 ∧ SameFrame p p' := by
  obtain ⟨p1, hfree, h1, hstore1, hframe1⟩ := h.allocFree hc hro
  obtain ⟨h2, hframe2, hpgno, hstore2⟩ := h1.allocGrow (p.store c).allocFree.1
  rw [hstore1] at hpgno hstore2
  have hps : (Tdb.allocGrow p1 (p.store c).allocFree.1).1.pageSize = p.pageSize :=
    hframe2.pageSize.trans hframe1.pageSize
  obtain ⟨h3, hstore3, hframe3⟩ := h2.replace
    ⟨((p.store c).alloc p.pageSize).1, zeros p.pageSize, true, 1⟩ (by simp [hps]) rfl
  rw [hstore2] at hstore3
  refine ⟨_, ?_, h3, hstore3, hframe1.trans (hframe2.trans hframe3)⟩
  unfold pagerAlloc
  simp only [hro, Bool.false_eq_true, if_false, hfree]
  rw [hpgno, hps]
  rfl

end

/-! ## Freeing -/

theorem emptyTrunk_fit {pageSize : Nat} (h : 512 ≤ pageSize) (next : UInt32) :
    FieldsFit (zeros pageSize).length [(0, [0xFE]), (1, putU32 next), (5, putU32 0)] := by
  constructor
  · intro f hf
    simp only [mem_cons, not_mem_nil, or_false] at hf
    rcases hf with rfl | rfl | rfl <;> simp <;> omega
  · simp [FieldsDisjoint]

theorem length_emptyTrunk {pageSize : Nat} (h : 512 ≤ pageSize) (next : UInt32) :
    (emptyTrunk pageSize next).length = pageSize := by
  rw [emptyTrunk, length_writeFields (emptyTrunk_fit h next), length_zeros]

theorem CacheInv.freeAsTrunk (h : CacheInv c p fs tail) (hc : c.Inverts)
    (hro : p.readonly = false) {g : UInt32} (hg : g ≠ 0) :
    ∃ p', freeAsTrunk c p g = (.ok, p') ∧ CacheInv c p' fs tail ∧
      p'.store c = (p.store c).freeAsTrunk p.pageSize g ∧ SameFrame p p' := by
  obtain ⟨p1, pg, hget, h1, hstore, hframe, -, hlook, -⟩ := h.get hc hg
  have hro1 : p1.readonly = false := hframe.readonly.trans hro
  obtain ⟨h2, hstore2, hframe2⟩ := h1.putPage hlook
    (length_emptyTrunk h1.size_min p1.hdr.freelistHead) hro1
  rw [hstore] at hstore2
  have hhdr := hdr_of_store hstore
  have hhdr2 := hdr_of_store hstore2
  refine ⟨_, ?_, h2.setHdr { (p.store c).hdr with
      freelistHead := g, freelistCount := (p.store c).hdr.freelistCount + 1 }, ?_,
    hframe.trans (hframe2.trans (sameFrame_setHdr _))⟩
  · unfold Tdb.freeAsTrunk
    simp only [hget]
    rw [hhdr2]
    rfl
  · rw [store_setHdr, hstore2, hhdr, hframe.pageSize]
    rfl

/-- The offset of leaf `count` of a trunk that has room, computed in 32 bits. -/
theorem leaf_offset {pageSize : Nat} {count : UInt32} (hmax : pageSize ≤ 65536)
    (h : count.toNat < perTrunk pageSize) :
    (9 + count * 4).toNat = 9 + count.toNat * 4 ∧ 9 + count.toNat * 4 + 4 ≤ pageSize := by
  unfold perTrunk at h
  have hmul : (count * 4).toNat = count.toNat * 4 := by
    rw [UInt32.toNat_mul]
    exact Nat.mod_eq_of_lt (by simp; omega)
  refine ⟨?_, by omega⟩
  rw [UInt32.toNat_add, hmul]
  exact Nat.mod_eq_of_lt (by simp; omega)

/-- **`tdb_pager_free` refines the store's freeing.** -/
theorem CacheInv.free (h : CacheInv c p fs tail) (hc : c.Inverts) (hro : p.readonly = false)
    {g : UInt32} (h0 : g ≠ 0) (h1 : g ≠ 1) :
    ∃ p', pagerFree c p g = (.ok, p') ∧ CacheInv c p' fs tail ∧
      p'.store c = (p.store c).free p.pageSize g ∧ SameFrame p p' := by
  unfold pagerFree Store.free
  have hhead : (p.store c).hdr.freelistHead = p.hdr.freelistHead := rfl
  simp only [hro, Bool.false_eq_true, if_false, h0, h1, or_self, hhead]
  by_cases hnil : p.hdr.freelistHead = 0
  · simp only [if_pos hnil]
    exact h.freeAsTrunk hc hro h0
  · simp only [if_neg hnil]
    obtain ⟨p1, trunk, hget, hinv1, hstore, hframe, -, hlook, hdata⟩ := h.get hc hnil
    have hro1 : p1.readonly = false := hframe.readonly.trans hro
    simp only [hget, hdata, hframe.pageSize]
    set count := trunkCount ((p.store c).read p.hdr.freelistHead) with hcount
    by_cases hroom : count.toNat < perTrunk p.pageSize
    · -- a new leaf of the first trunk
      simp only [if_pos hroom]
      obtain ⟨hoff, hfit⟩ := leaf_offset h.size_max hroom
      have hread := h.length_read hc p.hdr.freelistHead
      have hlen1 : (splice ((p.store c).read p.hdr.freelistHead) (9 + count * 4).toNat
          (putU32 g)).length = p.pageSize := by
        rw [length_splice (by rw [hoff, hread]; simpa using hfit), hread]
      have hlen2 : (splice (splice ((p.store c).read p.hdr.freelistHead) (9 + count * 4).toNat
          (putU32 g)) 5 (putU32 (count + 1))).length = p1.pageSize := by
        rw [length_splice (by rw [hlen1]; simp; omega), hlen1, hframe.pageSize]
      obtain ⟨h2, hstore2, hframe2⟩ := hinv1.putPage hlook hlen2 hro1
      rw [hstore] at hstore2
      have hhdr2 := hdr_of_store hstore2
      refine ⟨_, rfl, h2.setHdr _, ?_, hframe.trans (hframe2.trans (sameFrame_setHdr _))⟩
      rw [store_setHdr, hstore2, hhdr2]
      rfl
    · -- the first trunk is full
      simp only [if_neg hroom]
      obtain ⟨h2, hstore2⟩ := hinv1.unref p.hdr.freelistHead
      have hframe2 : SameFrame p (pagerUnref p1 p.hdr.freelistHead) :=
        hframe.trans (sameFrame_modify _ _)
      obtain ⟨p3, hrun, h3, hstore3, hframe3⟩ :=
        h2.freeAsTrunk hc (hframe2.readonly.trans hro) h0
      refine ⟨p3, hrun, h3, ?_, hframe2.trans hframe3⟩
      rw [hstore3, hstore2, hstore, hframe2.pageSize]

/-! ## Flushing the header -/

theorem filter_dirty_modify {f : Page → Page} {cache : List Page} {g : UInt32}
    (hnd : (cache.map Page.pgno).Nodup) (hmem : g ∈ cache.map Page.pgno)
    (hf : ∀ pg, (f pg).dirty = true) :
    ((cache.map (fun pg => if pg.pgno = g then f pg else pg)).filter (fun pg => pg.dirty)).length
      = (cache.filter (fun pg => pg.dirty && pg.pgno != g)).length + 1 := by
  induction cache with
  | nil => simp at hmem
  | cons q qs ih =>
    rw [map_cons, nodup_cons] at hnd
    rw [map_cons, filter_cons, filter_cons]
    by_cases hq : q.pgno = g
    · -- no later page has this number, so the rest is unchanged
      have hrest : qs.map (fun pg => if pg.pgno = g then f pg else pg) = qs := by
        conv_rhs => rw [← map_id qs]
        apply map_congr_left
        intro x hx
        rw [if_neg (fun hx' => hnd.1 (by rw [hq, ← hx']; exact mem_map_of_mem hx))]
        rfl
      have hsame : qs.filter (fun pg => pg.dirty && pg.pgno != g)
          = qs.filter (fun pg => pg.dirty) := by
        apply filter_congr
        intro x hx
        have : x.pgno ≠ g := fun hx' => hnd.1 (by rw [hq, ← hx']; exact mem_map_of_mem hx)
        simp [this]
      simp [hq, hf, hrest, hsame]
    · have hmem' : g ∈ qs.map Page.pgno := by
        rcases mem_cons.mp hmem with h | h
        · exact absurd h.symm hq
        · exact h
      have := ih hnd.2 hmem'
      by_cases hd : q.dirty = true
      · simp [hq, hd, this]
      · simp [hq, hd, this]

/-- The number of dirty pages besides page 1. -/
def Pager.otherDirty (p : Pager) : Nat :=
  (p.cache.filter (fun pg => pg.dirty && pg.pgno != 1)).length

theorem otherDirty_eq (p : Pager) :
    p.otherDirty = (p.dirtyList.filter (fun img => img.1 != 1)).length := by
  unfold Pager.otherDirty Pager.dirtyList
  rw [filter_map, length_map, filter_filter]
  congr 2
  funext pg
  simp [Bool.and_comm]

section

variable (h : CacheInv c p fs tail) (hS : ∀ g data, (p.store c).dirty g = some data → g ∈ S)

include h hS

/-- At most the pages of `S` are dirty. -/
theorem CacheInv.dirty_length_le :
    (p.cache.filter (fun pg => pg.dirty)).length ≤ S.length := by
  have hnd : ((p.cache.filter (fun pg => pg.dirty)).map Page.pgno).Nodup :=
    Keyed.nodup_filter h.nodup
  have hsub : (p.cache.filter (fun pg => pg.dirty)).map Page.pgno ⊆ S := by
    intro g hg
    obtain ⟨pg, hpg, rfl⟩ := mem_map.mp hg
    obtain ⟨hin, hd⟩ := mem_filter.mp hpg
    have hl : cacheLookup p pg.pgno = some pg := Keyed.find_of_mem h.nodup hin
    exact hS pg.pgno pg.data (by simp only [Pager.store, hl, Option.bind_some, hd, if_true])
  have hle := (subperm_of_subset hnd hsub).length_le
  rwa [length_map] at hle

theorem CacheInv.otherDirty_le : p.otherDirty ≤ S.length := by
  refine le_trans (List.Sublist.length_le ?_) (h.dirty_length_le hS)
  exact monotone_filter_right _ (fun pg hpg => (Bool.and_eq_true _ _ ▸ hpg).1)

end

/-- At least the pages of `S` are dirty. -/
theorem le_dirty_length (hnd : S.Nodup) (hS : ∀ g ∈ S, ((p.store c).dirty g).isSome) :
    S.length ≤ (p.cache.filter (fun pg => pg.dirty)).length := by
  have hsub : S ⊆ (p.cache.filter (fun pg => pg.dirty)).map Page.pgno := by
    intro g hg
    have hsome := hS g hg
    simp only [Pager.store] at hsome
    cases hl : cacheLookup p g with
    | none =>
      rw [hl] at hsome
      cases hsome
    | some pg =>
      rw [hl, Option.bind_some] at hsome
      split at hsome
      · rename_i hd
        rw [← Keyed.key_of_find hl]
        exact mem_map_of_mem (mem_filter.mpr ⟨Keyed.mem_of_find hl, hd⟩)
      · cases hsome
  have hle := (subperm_of_subset hnd hsub).length_le
  rwa [length_map] at hle

/-- **`flush_header` refines the store's flush**, and leaves page 1 dirty besides what was. -/
theorem CacheInv.flush (h : CacheInv c p fs tail) (hc : c.Inverts) :
    ∃ p', flushHeader c p = (.ok, p') ∧ CacheInv c p' fs tail ∧
      p'.store c = (p.store c).flush ∧ SameFrame p p' ∧
      (p'.cache.filter (fun pg => pg.dirty)).length = p.otherDirty + 1 := by
  obtain ⟨p1, pg, hget, h1, hstore, hframe, hdl, hlook, hdata⟩ := h.get hc (g := 1) (by decide)
  have hhdr := hdr_of_store hstore
  set hdr : DbHdr := { p1.hdr with changeCounter := p1.hdr.changeCounter + 1 } with hhdr'
  set f : Page → Page := fun q =>
    { q with data := hdrSerialize hdr pg.data, dirty := true, refs := q.refs - 1 } with hf
  have hlen : (hdrSerialize hdr pg.data).length = p1.pageSize := by
    have hlen1 := h1.lengths 1 pg hlook
    have hmin := h1.size_min
    rw [length_hdrSerialize (by omega), hlen1]
  obtain ⟨h2, hstore2⟩ := (h1.setHdr hdr).put hlook hlen (f := f) (fun _ => ⟨rfl, rfl, rfl⟩)
  have hrun : flushHeader c p
      = (.ok, { cacheModify (p1.setHdr hdr) 1 f with hdrDirty := false }) := by
    unfold flushHeader
    simp only [hget]
    unfold pagerUnref
    rw [cacheModify_modify (by intro _; rfl)]
    rfl
  refine ⟨_, hrun, ⟨h2.log, h2.size, h2.size_min, h2.size_max, h2.nodup, h2.lengths, h2.clean⟩,
    ?_, hframe.trans ⟨rfl, rfl, rfl, rfl, rfl, rfl⟩, ?_⟩
  · change (cacheModify (p1.setHdr hdr) 1 f).store c = _
    rw [hstore2, store_setHdr, hstore, hdata, hhdr', hhdr]
    rfl
  · have hmem : (1 : UInt32) ∈ p1.cache.map Page.pgno := by
      rw [← Keyed.key_of_find hlook]
      exact mem_map_of_mem (Keyed.mem_of_find hlook)
    have hcount := filter_dirty_modify h1.nodup hmem (f := f) (fun _ => rfl)
    have hsame : p1.otherDirty = p.otherDirty := by rw [otherDirty_eq, otherDirty_eq, hdl]
    rw [← hsame]
    exact hcount

end Tdb
