import TransactionDB.Storage.PagerCrash

/-!
# TransactionDB — when a commit is complete

A commit is complete when a crash right after it loses nothing: every page is recovered
with the image the cache has, and no page is left dirty. The pages to append are collected
in an array of 2112 entries, and pages beyond it are passed over without an error. So a
commit is complete exactly when the dirty pages, page 1 among them, fit that array.
-/

namespace Tdb

open Layout List

variable {c : Codec} {p p' : Pager} {fs : List Frame} {tail : Bytes}

variable {pages : List (UInt32 × Bytes)}

/-- The commit is durable and whole. -/
def CommitComplete (c : Codec) (p : Pager) : Prop :=
  Recovers c p.wal.file.bytes p.file.bytes p.pageSize (pageImage c p) ∧
    ∀ pg ∈ p.cache, pg.dirty = false

/-- A commit, taken apart into the appended transaction and the automatic checkpoint. -/
theorem pagerCommit_ok_inv (hrun : pagerCommit c p = (.ok, p')) :
    p.readonly = false ∧ ∃ q, commitFramesOf c p = (.ok, q) ∧
      (p' = q ∨ ∃ rc wal file, walCheckpoint c q.wal q.file = (rc, wal, file) ∧
        p' = { q with wal := wal, file := file }) := by
  unfold pagerCommit at hrun
  split at hrun
  · cases hrun
  · rename_i hro
    refine ⟨by simpa using hro, ?_⟩
    split at hrun
    · rename_i q hq
      cases hrun
      refine ⟨q, hq, ?_⟩
      split
      · unfold pagerCheckpoint
        split
        · exact Or.inl rfl
        · split
          · exact Or.inl rfl
          · exact Or.inr ⟨_, _, _, rfl, rfl⟩
      · exact Or.inl rfl
    · rename_i rc q hne hq
      cases hrun
      exact absurd rfl hne

/-- A page that was not collected is still dirty after the commit. -/
theorem CommitSpec.left_pos {q : Pager} (h : CommitSpec c p q fs tail pages)
    (hbig : dirtyMax < p.otherDirty + 1) :
    ∃ pg ∈ q.cache, pg.dirty = true := by
  have hleft := h.left
  rw [h.pages_length, Nat.min_eq_left hbig.le] at hleft
  obtain ⟨pg, hpg⟩ := exists_mem_of_length_pos (by rw [hleft]; omega)
  rw [mem_filter] at hpg
  exact ⟨pg, hpg.1, hpg.2⟩

theorem CommitSpec.none_dirty {q : Pager} (h : CommitSpec c p q fs tail pages)
    (hfit : p.otherDirty + 1 ≤ dirtyMax) :
    ∀ pg ∈ q.cache, pg.dirty = false := by
  have hleft := h.left
  rw [h.pages_length, Nat.min_eq_right hfit, Nat.sub_self, length_eq_zero_iff,
    filter_eq_nil_iff] at hleft
  intro pg hpg
  simpa using hleft pg hpg

theorem dirty_eq_none (hclean : ∀ pg ∈ p.cache, pg.dirty = false) (g : UInt32) :
    (p.store c).dirty g = none := by
  simp only [Pager.store]
  cases hg : cacheLookup p g with
  | none => rfl
  | some pg => simp [hclean pg (Keyed.mem_of_find hg)]

theorem CommitSpec.dirty_eq_none {q : Pager} (h : CommitSpec c p q fs tail pages)
    (hfit : p.otherDirty + 1 ≤ dirtyMax) (g : UInt32) :
    (q.store c).dirty g = none :=
  Tdb.dirty_eq_none (h.none_dirty hfit) g

/-- A commit with its automatic checkpoint: the checkpoint changes neither the cache nor the
store, and a crash right after it leaves the images of the store's base. -/
theorem CacheInv.commit (h : CacheInv c p fs tail) (hc : c.Inverts)
    (hsound : TailSound c p.wal.cfg tail) (hdb : p.hdr.dbSize ≠ 0)
    (hrun : pagerCommit c p = (.ok, p')) :
    ∃ q pages wal file, CommitSpec c p q fs tail pages ∧ p' = { q with wal := wal, file := file } ∧
      (∀ g, readPageImage c wal file g = (.ok, (q.store c).base g)) ∧
      Recovers c wal.file.bytes file.bytes q.pageSize (q.store c).base := by
  obtain ⟨-, q, hq, hafter⟩ := pagerCommit_ok_inv hrun
  obtain ⟨pages, hspec⟩ := h.commitFramesOf hc hq
  have hinv := hspec.inv
  have hdb' : q.hdr.dbSize ≠ 0 := by
    rw [hspec.hdr]
    exact hdb
  obtain ⟨hsealed, -⟩ := sealed_commit hdb' fs hspec.pages_ne
  have hsound' := hsound.commit hspec
  have hbase : (q.store c).base = imageOf (fs ++ commitFrames q.hdr.dbSize pages)
      q.file.bytes q.wal.pageSize := by
    funext g
    rw [hinv.base_eq hc, hinv.size]
  rcases hafter with rfl | ⟨rc, wal, file, hckpt, rfl⟩
  · refine ⟨p', pages, p'.wal, p'.file, hspec, rfl, hinv.readImage hc, ?_⟩
    rw [hbase, ← hinv.size]
    exact hinv.log.recovers hc hsealed hsound' p'.file.bytes
  · refine ⟨q, pages, wal, file, hspec, rfl, ?_, ?_⟩
    · rw [hbase]
      exact hinv.log.checkpoint_read hc hckpt
    · rw [hbase, ← hinv.size]
      exact hinv.log.checkpoint_recovers hc hckpt hsealed hsound'

/-- **A successful commit is complete exactly when its dirty pages fit the array.** -/
theorem pagerCommit_complete_iff (hc : c.Inverts) (h : CacheInv c p fs tail)
    (hsound : TailSound c p.wal.cfg tail) (hdb : p.hdr.dbSize ≠ 0)
    (hrun : pagerCommit c p = (.ok, p')) :
    CommitComplete c p' ↔ p.otherDirty + 1 ≤ dirtyMax := by
  obtain ⟨q, pages, wal, file, hspec, rfl, hread, hrec⟩ := h.commit hc hsound hdb hrun
  constructor
  · -- too many pages: one of them is left dirty
    rintro ⟨-, hclean⟩
    by_contra hbig
    obtain ⟨pg, hpg, hd⟩ := hspec.left_pos (by omega)
    rw [hclean pg hpg] at hd
    cases hd
  · intro hfit
    have hclean := hspec.none_dirty hfit
    refine ⟨?_, hclean⟩
    have himg : pageImage c { q with wal := wal, file := file } = (q.store c).base := by
      funext g
      have hl : cacheLookup { q with wal := wal, file := file } g = cacheLookup q g := rfl
      unfold pageImage
      rw [hl]
      cases hg : cacheLookup q g with
      | none => simp only [hread]
      | some pg => exact hspec.inv.clean g pg hg (hclean pg (Keyed.mem_of_find hg))
    rw [himg]
    exact hrec

/-- What is lost when they do not fit: some page stays dirty, and after a crash it has the
image it had before the transaction. -/
theorem pagerCommit_loses (hc : c.Inverts) (h : CacheInv c p fs tail)
    (hsound : TailSound c p.wal.cfg tail) (hdb : p.hdr.dbSize ≠ 0)
    (hrun : pagerCommit c p = (.ok, p')) (hbig : dirtyMax < p.otherDirty + 1) :
    ∃ pg ∈ p'.cache, pg.dirty = true ∧ (p.store c).flush.dirty pg.pgno = some pg.data ∧
      ∃ w, walOpen c ⟨p'.wal.file.bytes, []⟩ p'.pageSize = (.ok, w) ∧
        readPageImage c w ⟨p'.file.bytes, []⟩ pg.pgno = (.ok, (p.store c).base pg.pgno) := by
  obtain ⟨q, pages, wal, file, hspec, rfl, hread, w, hopen, hrec⟩ := h.commit hc hsound hdb hrun
  obtain ⟨pg, hpg, hd⟩ := hspec.left_pos hbig
  have hlook : cacheLookup q pg.pgno = some pg := Keyed.find_of_mem hspec.inv.nodup hpg
  have hleft : (q.store c).dirty pg.pgno = some pg.data := by
    simp [Pager.store, hlook, hd]
  rw [hspec.dirty] at hleft
  split at hleft
  · cases hleft
  · rename_i hnot
    refine ⟨pg, hpg, hd, hleft, w, hopen, ?_⟩
    rw [hrec, hspec.inv.base_eq hc, imageOf_append_of_not_mem
      (by rwa [commitFrames_pgnos]), hspec.file, hspec.pageSize,
      ← h.base_eq hc]

/-! ## Two commits

A fresh database with pages of 512 bytes, and the same with `n` more pages filled with
ones. With 2112 of them there is one page too many for the array. -/

def freshPager : Pager :=
  newPager ⟨[], []⟩ (walOpen Codec.identity ⟨[], []⟩ 512).2 false (newHdr 512)

def ones : Bytes := List.replicate 512 1

/-- The new page `i + 2`, dirty. -/
def onesPage (i : Nat) : Page := ⟨UInt32.ofNat (i + 2), ones, true, 0⟩

/-- `n` pages allocated and filled. -/
def fillOnes (p : Pager) (n : Nat) : Pager :=
  { p with
    hdr := { p.hdr with dbSize := UInt32.ofNat (n + 1) }
    cache := (List.range n).reverse.map onesPage
    lru := (List.range n).reverse.map (fun i => UInt32.ofNat (i + 2)) }

theorem freshPager_spec : CacheInv Codec.identity freshPager [] [] ∧
    freshPager.wal.file.fail = [] ∧ freshPager.pageSize = 512 ∧
    ∀ g, (freshPager.store Codec.identity).base g = zeros 512 := by
  obtain ⟨w, hopen, hfail, hsize, -, -, hrep⟩ := walOpen_fresh (c := Codec.identity)
    (show 512 < 2 ^ 32 by decide) (show (⟨[], []⟩ : File).fail = [] from rfl) (by decide)
  have hinv : CacheInv Codec.identity freshPager [] [] := by
    unfold freshPager
    rw [hopen]
    exact cacheInv_newPager hrep (by simp only [hsize]; decide) (by simp only [hsize]; decide) _ _ _
  have hps : freshPager.pageSize = 512 := by
    unfold freshPager
    rw [hopen]
    exact hsize
  refine ⟨hinv, ?_, hps, ?_⟩
  · unfold freshPager
    rw [hopen]
    exact hfail
  · intro g
    rw [hinv.base_eq Codec.identity_inverts, hps]
    exact readPad_nil 0 _ _

variable {n : Nat}

theorem fillOnes_inv (h : CacheInv c p fs tail) (hps : p.pageSize = 512) (hn : n < 2 ^ 31) :
    CacheInv c (fillOnes p n) fs tail := by
  refine h.of_lookups ⟨rfl, rfl, rfl, rfl, rfl, rfl⟩ ?_ ?_
  · rw [fillOnes, map_map]
    refine List.Nodup.map_on ?_ (nodup_reverse.mpr nodup_range)
    intro i hi j hj heq
    have hval := congrArg UInt32.toNat heq
    simp only [Function.comp, onesPage, UInt32.toNat_ofNat', mem_reverse,
      mem_range] at hval hi hj
    omega
  · intro g pg hg
    obtain ⟨i, -, rfl⟩ := mem_map.mp (Keyed.mem_of_find hg)
    exact Or.inr ⟨by rw [hps]; exact length_replicate, fun hd => by cases hd⟩

theorem fillOnes_dirty {g : UInt32} {data : Bytes}
    (h : ((fillOnes p n).store c).dirty g = some data) :
    data = ones ∧ ∃ i < n, g = UInt32.ofNat (i + 2) := by
  simp only [Pager.store] at h
  obtain ⟨pg, hlook, hsome⟩ := Option.bind_eq_some_iff.mp h
  obtain ⟨i, hi, rfl⟩ := mem_map.mp (Keyed.mem_of_find hlook)
  have hkey : (onesPage i).pgno = g := Keyed.key_of_find hlook
  simp only [onesPage, if_true, Option.some.injEq] at hsome
  exact ⟨hsome.symm, i, by simpa using hi, hkey.symm⟩

theorem otherDirty_fillOnes (hn : n < 2 ^ 31) : (fillOnes p n).otherDirty = n := by
  unfold Pager.otherDirty fillOnes
  rw [filter_eq_self.mpr]
  · simp
  · intro pg hpg
    obtain ⟨i, hi, rfl⟩ := mem_map.mp hpg
    have hi' : i < n := by simpa using hi
    have hne : UInt32.ofNat (i + 2) ≠ 1 := by
      intro heq
      have hval := congrArg UInt32.toNat heq
      simp only [UInt32.toNat_ofNat', UInt32.toNat_one] at hval
      omega
    simp only [onesPage, Bool.true_and, bne_iff_ne, ne_eq]
    exact hne

/-- The commit of a fresh database is complete: one page, the header. -/
theorem pagerCommit_complete_fresh : ∃ p', pagerCommit Codec.identity freshPager = (.ok, p') ∧
    CommitComplete Codec.identity p' := by
  obtain ⟨hinv, hfail, -⟩ := freshPager_spec
  obtain ⟨q, -, -, hrun⟩ := hinv.commit_succeeds Codec.identity_inverts rfl hfail
    (by intro g data h; cases h)
  exact ⟨_, hrun, (pagerCommit_complete_iff Codec.identity_inverts hinv (tailSound_nil _ _)
    (by decide) hrun).mpr (by decide)⟩

theorem crowded_data_ne {p : Pager} {g : UInt32} {data : Bytes}
    (h : ((fillOnes p n).store c).flush.dirty g = some data) : data ≠ zeros 512 := by
  by_cases hg : g = 1
  · -- page 1 starts with the magic
    subst hg
    simp only [Store.flush, Store.write, Store.setHdr, Function.update_self,
      Option.some.injEq] at h
    intro hz
    have hmagic := hasMagic_hdrSerialize
      { ((fillOnes p n).store c).hdr with
        changeCounter := ((fillOnes p n).store c).hdr.changeCounter + 1 }
      (((fillOnes p n).store c).read 1)
    rw [h, hz] at hmagic
    revert hmagic
    decide
  · simp only [Store.flush, Store.write, Store.setHdr, Function.update_of_ne hg] at h
    rw [(fillOnes_dirty h).1]
    decide

/-- A commit of 2113 dirty pages returns `TDB_OK`, leaves a page dirty, and a crash right
after it loses what was written to that page. -/
theorem pagerCommit_crowded_loses : ∃ p',
    pagerCommit Codec.identity (fillOnes freshPager 2112) = (.ok, p') ∧
      ∃ pg ∈ p'.cache, pg.dirty = true ∧
        ∃ w, walOpen Codec.identity ⟨p'.wal.file.bytes, []⟩ p'.pageSize = (.ok, w) ∧
          readPageImage Codec.identity w ⟨p'.file.bytes, []⟩ pg.pgno ≠ (.ok, pg.data) := by
  obtain ⟨hfresh, hfail, hps, hbase⟩ := freshPager_spec
  have hinv := fillOnes_inv hfresh hps (show 2112 < 2 ^ 31 by decide)
  obtain ⟨q, -, -, hrun⟩ := hinv.commit_succeeds Codec.identity_inverts rfl hfail (by
    intro g data h
    obtain ⟨-, i, hi, rfl⟩ := fillOnes_dirty h
    simp only [UInt32.toNat_ofNat']
    omega)
  obtain ⟨pg, hpg, hd, hdata, w, hopen, hread⟩ := pagerCommit_loses Codec.identity_inverts hinv
    (tailSound_nil _ _) (by decide) hrun
    (by rw [otherDirty_fillOnes (by decide)]; decide)
  refine ⟨_, hrun, pg, hpg, hd, w, hopen, ?_⟩
  rw [hread]
  intro heq
  refine crowded_data_ne hdata ?_
  rw [← (Prod.mk.inj heq).2]
  exact hbase pg.pgno

end Tdb
