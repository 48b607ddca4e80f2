import TransactionDB.Storage.FreeList
import TransactionDB.Storage.PagerCommit

/-!
# TransactionDB — inside a transaction

What a client can do between `tdb_pager_begin` and the end of a transaction. No operation
touches the log or the main file, all keep the cache coherent, and a dirty page is never
dropped except by a rollback.

* `PageOp`: reading, writing, allocating and freeing pages, and the header setters.
* `pagerRollbackTo`: what a return to a savepoint does to the store.
* `pagerRollback`: what the end of an abandoned transaction does to it.
-/

namespace Tdb

open Layout List

/-! ## Operations on pages and the header -/

inductive PageOp where
  | get (pgno : UInt32)
  | unref (pgno : UInt32)
  /-- `tdb_pager_write` on a page the client holds, and a change of its buffer to `data`. -/
  | write (pgno : UInt32) (data : Bytes)
  | alloc
  | free (pgno : UInt32)
  | setMaxTxnid (v : UInt64)
  | setSchemaCookie (v : UInt32)
  | setCatalogRoot (pgno : UInt32)

/-- The state after an operation, whatever it returned. The client writes only to pages it
holds, and buffers keep their size. -/
def PageOp.run (c : Codec) (p : Pager) : PageOp → Pager
  | .get g => (pagerGet c p g).2.1
  | .unref g => pagerUnref p g
  | .write g data =>
    match pagerWrite p g with
    | (.ok, p) => if data.length = p.pageSize then setData p g data else p
    | (_, p) => p
  | .alloc => (pagerAlloc c p).2.1
  | .free g => (pagerFree c p g).2
  | .setMaxTxnid v => Tdb.setMaxTxnid p v
  | .setSchemaCookie v => Tdb.setSchemaCookie p v
  | .setCatalogRoot g => Tdb.setCatalogRoot p g

/-- What every operation on pages keeps. -/
structure PageStep (c : Codec) (p p' : Pager) : Prop where
  frame : SameFrame p p'
  dirty : ∀ g, ((p.store c).dirty g).isSome → ((p'.store c).dirty g).isSome
  hdrSize : p'.hdr.pageSize = p.hdr.pageSize

section Page

variable {c : Codec} {p p' : Pager} {fs : List Frame} {tail : Bytes}

theorem PageStep.refl (p : Pager) : PageStep c p p := ⟨.refl p, fun _ h => h, rfl⟩

theorem dirty_write_isSome {s : Store} {g g' : UInt32} (data : Bytes)
    (h : (s.dirty g').isSome) : ((s.write g data).dirty g').isSome := by
  unfold Store.write
  by_cases hg : g' = g
  · subst hg
    simp
  · simpa [Function.update_of_ne hg] using h

theorem Store.alloc_keeps (s : Store) (pageSize : Nat) :
    (∀ g, (s.dirty g).isSome → ((s.alloc pageSize).2.dirty g).isSome) ∧
      (s.alloc pageSize).2.hdr.pageSize = s.hdr.pageSize := by
  have hfree : (∀ g, (s.dirty g).isSome → (s.allocFree.2.dirty g).isSome) ∧
      s.allocFree.2.hdr.pageSize = s.hdr.pageSize := by
    unfold Store.allocFree
    dsimp only
    split
    · exact ⟨fun _ h => h, rfl⟩
    · split
      · exact ⟨fun g h => dirty_write_isSome _ h, rfl⟩
      · exact ⟨fun _ h => h, rfl⟩
  have hgrow : ∀ (t : Store) (a : UInt32), (t.allocGrow a).2.dirty = t.dirty ∧
      (t.allocGrow a).2.hdr.pageSize = t.hdr.pageSize := by
    intro t a
    unfold Store.allocGrow
    split <;> exact ⟨rfl, rfl⟩
  obtain ⟨hd, hps⟩ := hgrow s.allocFree.2 s.allocFree.1
  refine ⟨fun g h => dirty_write_isSome _ ?_, hps.trans hfree.2⟩
  rw [hd]
  exact hfree.1 g h

theorem Store.free_keeps (s : Store) (pageSize : Nat) (a : UInt32) :
    (∀ g, (s.dirty g).isSome → ((s.free pageSize a).dirty g).isSome) ∧
      (s.free pageSize a).hdr.pageSize = s.hdr.pageSize := by
  unfold Store.free Store.freeAsTrunk
  dsimp only
  split
  · exact ⟨fun g h => dirty_write_isSome _ h, rfl⟩
  · split <;> exact ⟨fun g h => dirty_write_isSome _ h, rfl⟩

/-- A step described by its effect on the store. -/
theorem PageStep.of_store (hframe : SameFrame p p') {s : Store} (hstore : p'.store c = s)
    (hdirty : ∀ g, ((p.store c).dirty g).isSome → (s.dirty g).isSome)
    (hps : s.hdr.pageSize = p.hdr.pageSize) : PageStep c p p' := by
  refine ⟨hframe, ?_, ?_⟩
  · rw [hstore]
    exact hdirty
  · rw [hdr_of_store hstore]
    exact hps

section

variable (h : CacheInv c p fs tail)

include h

theorem pagerUnref_spec (g : UInt32) :
    CacheInv c (pagerUnref p g) fs tail ∧ PageStep c p (pagerUnref p g) := by
  obtain ⟨hinv, hstore⟩ := h.unref g
  exact ⟨hinv, .of_store (sameFrame_modify _ _) hstore (fun _ h => h) rfl⟩

/-- A client's write to a page. Where the page is not cached nothing happens. -/
theorem write_spec (g : UInt32) (data : Bytes) :
    CacheInv c (PageOp.run c p (.write g data)) fs tail ∧
      PageStep c p (PageOp.run c p (.write g data)) := by
  set mark : Page → Page := fun pg => { pg with dirty := true } with hmark
  set fill : Page → Page := fun pg => { pg with data := data } with hfill
  unfold PageOp.run pagerWrite
  by_cases hro : p.readonly = true
  · simp only [hro, if_true]
    exact ⟨h, .refl p⟩
  · simp only [hro, if_false, Bool.false_eq_true]
    have hmarked : CacheInv c (cacheModify p g mark) fs tail :=
      h.modify (by intro _; rfl) (fun pg hpg => ⟨h.lengths g pg hpg, fun hd => by cases hd⟩)
    have hdirty : ∀ (f : Page → Page), (∀ pg, (f pg).pgno = pg.pgno) → (∀ pg, (f pg).dirty = true) →
        ∀ g', ((p.store c).dirty g').isSome → (((cacheModify p g f).store c).dirty g').isSome := by
      intro f hf hd g' hsome
      simp only [Pager.store] at hsome ⊢
      rw [cacheLookup_modify hf]
      split
      · cases hl : cacheLookup p g' with
        | none =>
          rw [hl] at hsome
          simp at hsome
        | some pg => simp [hd]
      · exact hsome
    split
    · rename_i hlen
      have hboth : setData (cacheModify p g mark) g data = cacheModify p g (fill ∘ mark) :=
        cacheModify_modify (by intro _; rfl) g
      rw [hboth]
      refine ⟨h.modify (by intro _; rfl) (fun pg hpg => ⟨hlen, fun hd => by cases hd⟩), ?_⟩
      exact ⟨sameFrame_modify _ _, hdirty _ (by intro _; rfl) (by intro _; rfl), rfl⟩
    · exact ⟨hmarked, sameFrame_modify _ _, hdirty _ (by intro _; rfl) (by intro _; rfl), rfl⟩

/-- A write to a page that is dirty already. -/
theorem write_store (hro : p.readonly = false) {g : UInt32} {data : Bytes}
    (hd : ((p.store c).dirty g).isSome) (hlen : data.length = p.pageSize) :
    ((PageOp.write g data).run c p).store c = (p.store c).write g data := by
  obtain ⟨pg, hl⟩ : ∃ pg, cacheLookup p g = some pg := by
    cases hl : cacheLookup p g with
    | none => simp [Pager.store, hl] at hd
    | some pg => exact ⟨pg, rfl⟩
  set f : Page → Page := fun pg => { pg with dirty := true, data := data } with hf
  have hrun : (PageOp.write g data).run c p = cacheModify p g f := by
    simp only [PageOp.run, pagerWrite, hro, Bool.false_eq_true, if_false]
    rw [if_pos (show data.length = (cacheModify p g _).pageSize from hlen), setData,
      cacheModify_modify (by intro _; rfl)]
    rfl
  rw [hrun]
  exact (h.put hl hlen (f := f) (fun _ => ⟨rfl, rfl, rfl⟩)).2

/-- **Every operation on pages** keeps the cache coherent, the dirty pages and the files. -/
theorem CacheInv.pageOp (hc : c.Inverts) (op : PageOp) :
    CacheInv c (op.run c p) fs tail ∧ PageStep c p (op.run c p) := by
  cases op with
  | get g =>
    by_cases hg : g = 0
    · have hrun : PageOp.run c p (.get g) = p := by simp [PageOp.run, pagerGet, hg]
      rw [hrun]
      exact ⟨h, .refl p⟩
    · obtain ⟨p1, pg, hget, hinv, hstore, hframe, -⟩ := h.get hc hg
      have hrun : PageOp.run c p (.get g) = p1 := by simp [PageOp.run, hget]
      rw [hrun]
      exact ⟨hinv, .of_store hframe hstore (fun _ h => h) rfl⟩
  | unref g => exact pagerUnref_spec h g
  | write g data => exact write_spec h g data
  | alloc =>
    by_cases hro : p.readonly = true
    · have hrun : PageOp.run c p .alloc = p := by simp [PageOp.run, pagerAlloc, hro]
      rw [hrun]
      exact ⟨h, .refl p⟩
    · obtain ⟨p1, halloc, hinv, hstore, hframe⟩ := h.alloc hc (by simpa using hro)
      have hrun : PageOp.run c p .alloc = p1 := by simp [PageOp.run, halloc]
      obtain ⟨hdirty, hps⟩ := Store.alloc_keeps (p.store c) p.pageSize
      rw [hrun]
      exact ⟨hinv, .of_store hframe hstore hdirty hps⟩
  | free g =>
    by_cases hro : p.readonly = true
    · have hrun : PageOp.run c p (.free g) = p := by simp [PageOp.run, pagerFree, hro]
      rw [hrun]
      exact ⟨h, .refl p⟩
    · by_cases hg : g = 0 ∨ g = 1
      · have hrun : PageOp.run c p (.free g) = p := by simp [PageOp.run, pagerFree, hro, hg]
        rw [hrun]
        exact ⟨h, .refl p⟩
      · rw [not_or] at hg
        obtain ⟨p1, hfree, hinv, hstore, hframe⟩ := h.free hc (by simpa using hro) hg.1 hg.2
        have hrun : PageOp.run c p (.free g) = p1 := by simp [PageOp.run, hfree]
        obtain ⟨hdirty, hps⟩ := Store.free_keeps (p.store c) p.pageSize g
        rw [hrun]
        exact ⟨hinv, .of_store hframe hstore hdirty hps⟩
  | setMaxTxnid v | setSchemaCookie v | setCatalogRoot g =>
    exact ⟨h.setHdr _, sameFrame_setHdr _, fun _ h => h, rfl⟩

end

/-! ## Growing by many pages -/

/-- `n` pages allocated behind page `k` and filled with `data`. -/
def growOps (k : Nat) (data : Bytes) (n : Nat) : List PageOp :=
  (List.range n).flatMap (fun i => [.alloc, .write (UInt32.ofNat (k + 1 + i)) data])

/-- Growing a database without free pages: by induction on the number of pages. -/
theorem CacheInv.grow (h : CacheInv c p fs tail) (hc : c.Inverts) (hro : p.readonly = false)
    (hhead : p.hdr.freelistHead = 0) {k : Nat} (hk : p.hdr.dbSize = UInt32.ofNat k)
    {data : Bytes} (hlen : data.length = p.pageSize) (n : Nat) :
    ∃ q, (growOps k data n).foldl (PageOp.run c) p = q ∧ CacheInv c q fs tail ∧ SameFrame p q ∧
      q.hdr = { p.hdr with dbSize := UInt32.ofNat (k + n) } ∧
      (∀ i < n, (q.store c).dirty (UInt32.ofNat (k + 1 + i)) = some data) ∧
      ∀ g d, (q.store c).dirty g = some d → (p.store c).dirty g = some d ∨
        (d = data ∧ ∃ i < n, g = UInt32.ofNat (k + 1 + i)) := by
  induction n with
  | zero =>
    exact ⟨p, rfl, h, .refl p, by rw [Nat.add_zero, ← hk], by simp, fun g d hg => Or.inl hg⟩
  | succ n ih =>
    obtain ⟨q, hq, hinv, hframe, hhdr, hnew, hold⟩ := ih
    have hro' : q.readonly = false := hframe.readonly.trans hro
    have hqsize : (q.store c).hdr.dbSize = UInt32.ofNat (k + n) := by
      rw [show (q.store c).hdr = q.hdr from rfl, hhdr]
    -- the new page is the next one
    have hnext : UInt32.ofNat (k + n) + 1 = UInt32.ofNat (k + 1 + n) := by
      rw [show k + 1 + n = k + n + 1 by omega, UInt32.ofNat_add (k + n) 1]
      rfl
    obtain ⟨q1, halloc, hinv1, hstore1, hframe1⟩ := hinv.alloc hc hro'
    rw [(q.store c).alloc_grow q.pageSize (by
      rw [show (q.store c).hdr = q.hdr from rfl, hhdr]
      exact hhead), hqsize, hnext] at hstore1
    have hdirty1 : (q1.store c).dirty (UInt32.ofNat (k + 1 + n)) = some (zeros q.pageSize) := by
      rw [hstore1]
      simp [Store.write]
    have hro1 : q1.readonly = false := hframe1.readonly.trans hro'
    have hlen1 : data.length = q1.pageSize := by
      rw [hframe1.pageSize, hframe.pageSize]
      exact hlen
    have hstore2 := write_store hinv1 hro1 (by rw [hdirty1]; rfl) hlen1
    obtain ⟨hinv2, hstep2⟩ := write_spec hinv1 (UInt32.ofNat (k + 1 + n)) data
    have hdirty2 : ∀ g, (((PageOp.write (UInt32.ofNat (k + 1 + n)) data).run c q1).store c).dirty g
        = if g = UInt32.ofNat (k + 1 + n) then some data else (q.store c).dirty g := by
      intro g
      rw [hstore2, hstore1]
      simp only [Store.write, Store.setHdr, Function.update_apply]
      split <;> rfl
    refine ⟨(PageOp.write (UInt32.ofNat (k + 1 + n)) data).run c q1, ?_, hinv2,
      hframe.trans (hframe1.trans hstep2.frame), ?_, ?_, ?_⟩
    · rw [growOps, range_succ, flatMap_append, foldl_append]
      change List.foldl (PageOp.run c) ((growOps k data n).foldl (PageOp.run c) p) _ = _
      rw [hq]
      simp only [flatMap_singleton, foldl_cons, foldl_nil]
      rw [show PageOp.run c q .alloc = q1 by simp [PageOp.run, halloc]]
    · rw [hdr_of_store hstore2, Store.hdr_write, hstore1]
      change ({ q.hdr with dbSize := UInt32.ofNat (k + 1 + n) } : DbHdr) = _
      rw [hhdr, show k + 1 + n = k + (n + 1) by omega]
    · intro i hi
      rw [hdirty2]
      split
      · rfl
      · rename_i hne
        refine hnew i (by
          by_contra hge
          exact hne (by rw [show i = n by omega]))
    · intro g d hg
      rw [hdirty2] at hg
      split at hg
      · rename_i heq
        cases hg
        exact Or.inr ⟨rfl, n, by omega, heq⟩
      · rcases hold g d hg with hp | ⟨hd, i, hi, heq⟩
        · exact Or.inl hp
        · exact Or.inr ⟨hd, i, by omega, heq⟩

end Page

/-! ## Savepoints -/

/-- The image a savepoint has of a page. -/
def PagerSp.image (sp : PagerSp) (g : UInt32) : Option Bytes :=
  (Keyed.find Prod.fst sp.imgs g).map Prod.snd

/-- What all operations inside a transaction leave alone. -/
structure SameDisk (p p' : Pager) : Prop where
  wal : p'.wal = p.wal
  file : p'.file = p.file
  readonly : p'.readonly = p.readonly
  pageSize : p'.pageSize = p.pageSize

theorem SameDisk.refl (p : Pager) : SameDisk p p := ⟨rfl, rfl, rfl, rfl⟩

theorem SameDisk.trans {p q r : Pager} (h : SameDisk p q) (h' : SameDisk q r) : SameDisk p r :=
  ⟨h'.wal.trans h.wal, h'.file.trans h.file, h'.readonly.trans h.readonly,
    h'.pageSize.trans h.pageSize⟩

theorem SameFrame.disk {p p' : Pager} (h : SameFrame p p') : SameDisk p p' :=
  ⟨h.wal, h.file, h.readonly, h.pageSize⟩

theorem SameDisk.base {p p' : Pager} (h : SameDisk p p') (c : Codec) :
    (p'.store c).base = (p.store c).base := by
  simp [Pager.store, h.wal, h.file]

/-- The store in which the pages `gs` have the images `img`, or their committed ones. -/
def Store.revertTo (s : Store) (gs : List UInt32) (img : UInt32 → Option Bytes) (hdr : DbHdr) :
    Store :=
  { s with dirty := fun g => if g ∈ gs then img g else s.dirty g, hdr := hdr }

section Savepoint

variable {c : Codec} {p p' : Pager} {fs : List Frame} {tail : Bytes}

/-- A savepoint has the images of exactly the dirty pages. -/
theorem CacheInv.savepoint_image (h : CacheInv c p fs tail) (g : UInt32) :
    (spSnapshot p).image g = (p.store c).dirty g := by
  have hnd : ((bucketOrder p.cache).map Page.pgno).Nodup :=
    ((bucketOrder_perm p.cache).map Page.pgno).nodup_iff.mpr h.nodup
  unfold PagerSp.image spSnapshot
  simp only [Keyed.find_map_pair Page.pgno Page.data]
  rw [Keyed.find_filter hnd, Keyed.find_perm hnd (bucketOrder_perm p.cache)]
  simp only [Pager.store, cacheLookup]
  cases Keyed.find Page.pgno p.cache g with
  | none => rfl
  | some pg => by_cases hd : pg.dirty = true <;> simp [Option.filter, hd]

section

variable (imgs : List (UInt32 × Bytes))

include imgs

theorem cacheLookup_revertPage (hdr : DbHdr) (g g' : UInt32) :
    cacheLookup (revertPage imgs p g) g'
      = if g' = g then
          (cacheLookup p g').bind (fun pg => (PagerSp.image ⟨hdr, imgs⟩ g').map
            (fun data => { pg with data := data }))
        else cacheLookup p g' := by
  unfold revertPage PagerSp.image
  rw [show imgs.find? (fun img => decide (img.1 = g)) = Keyed.find Prod.fst imgs g from rfl]
  cases hf : Keyed.find Prod.fst imgs g with
  | none =>
    rw [cacheLookup_remove]
    by_cases hg : g' = g
    · subst hg
      simp [hf]
    · simp [hg]
  | some img =>
    simp only [setData]
    rw [cacheLookup_modify (by intro _; rfl)]
    by_cases hg : g' = g
    · subst hg
      cases cacheLookup p g' <;> simp [hf]
    · simp [hg]

/-- Pages reverted one after the other. -/
theorem cacheLookup_revert (hdr : DbHdr) (gs : List UInt32) (g : UInt32) :
    ∀ p : Pager, cacheLookup (gs.foldl (revertPage imgs) p) g
      = if g ∈ gs then
          (cacheLookup p g).bind (fun pg => (PagerSp.image ⟨hdr, imgs⟩ g).map
            (fun data => { pg with data := data }))
        else cacheLookup p g := by
  induction gs with
  | nil => intro p; simp
  | cons g1 rest ih =>
    intro p
    rw [foldl_cons, ih, cacheLookup_revertPage imgs hdr]
    by_cases h1 : g = g1
    · subst h1
      by_cases hr : g ∈ rest
      · cases cacheLookup p g <;> cases PagerSp.image ⟨hdr, imgs⟩ g <;> simp [hr]
      · simp [hr]
    · simp [h1]

theorem revertPage_keeps (g : UInt32) (hnd : (p.cache.map Page.pgno).Nodup) :
    ((revertPage imgs p g).cache.map Page.pgno).Nodup ∧ SameFrame p (revertPage imgs p g) ∧
      (revertPage imgs p g).hdr = p.hdr := by
  unfold revertPage
  split
  · refine ⟨?_, sameFrame_modify _ _, rfl⟩
    rw [setData, cacheModify, Keyed.map_key_modify (by intro _; rfl)]
    exact hnd
  · exact ⟨Keyed.nodup_filter hnd, sameFrame_remove _, rfl⟩

theorem revert_keeps (gs : List UInt32) :
    ∀ {p : Pager}, (p.cache.map Page.pgno).Nodup →
      ((gs.foldl (revertPage imgs) p).cache.map Page.pgno).Nodup ∧
        SameFrame p (gs.foldl (revertPage imgs) p) := by
  induction gs with
  | nil => exact fun hnd => ⟨hnd, .refl _⟩
  | cons g rest ih =>
    intro p hnd
    obtain ⟨hnd1, hframe1, -⟩ := revertPage_keeps imgs g hnd
    obtain ⟨hnd2, hframe2⟩ := ih hnd1
    exact ⟨hnd2, hframe1.trans hframe2⟩

end

/-- What a return to a savepoint does to the cache and the store, coherent or not. -/
theorem rollbackTo_of_nodup (c : Codec) (hnodup : (p.cache.map Page.pgno).Nodup) {level : Nat}
    {sp : PagerSp} (hsp : p.sps[level]? = some sp) :
    ∃ p', pagerRollbackTo p level = (.ok, p') ∧ (p'.cache.map Page.pgno).Nodup ∧
      (∀ g pg, cacheLookup p' g = some pg → cacheLookup p g = some pg ∨
        (pg.dirty = true ∧ sp.image g = some pg.data)) ∧
      p'.store c = (p.store c).revertTo ((collectDirty p).map Page.pgno) sp.image sp.hdr ∧
      SameDisk p p' ∧ p'.sps = p.sps.take (level + 1) ∧ p'.inTxn = p.inTxn := by
  set gs := (collectDirty p).map Page.pgno with hgs
  set q : Pager := { p with sps := p.sps.take (level + 1) } with hq
  obtain ⟨hnd, hframe⟩ := revert_keeps sp.imgs gs (p := q) hnodup
  have hlook := fun g => cacheLookup_revert sp.imgs sp.hdr gs g q
  have hrun : pagerRollbackTo p level
      = (.ok, { gs.foldl (revertPage sp.imgs) q with hdr := sp.hdr, hdrDirty := true }) := by
    unfold pagerRollbackTo
    rw [hsp]
  obtain ⟨r, hr⟩ : ∃ r, r = gs.foldl (revertPage sp.imgs) q := ⟨_, rfl⟩
  rw [← hr] at hnd hframe hrun
  simp only [← hr] at hlook
  change ∀ g, cacheLookup r g = if g ∈ gs then
      (cacheLookup p g).bind (fun pg => (sp.image g).map (fun data => { pg with data := data }))
      else cacheLookup p g at hlook
  clear_value gs
  -- the collected pages are dirty
  have hcoll : ∀ {g pg}, g ∈ gs → cacheLookup p g = some pg → pg.dirty = true := by
    intro g pg hg hl
    rw [hgs] at hg
    exact (mem_collectDirty (collectDirty_of_pgno hnodup hg hl)).2
  have hcached : ∀ {g}, g ∈ gs → ∃ pg, cacheLookup p g = some pg := by
    intro g hg
    rw [hgs] at hg
    obtain ⟨pg, hpg, rfl⟩ := mem_map.mp hg
    exact ⟨pg, Keyed.find_of_mem hnodup (mem_collectDirty hpg).1⟩
  refine ⟨{ r with hdr := sp.hdr, hdrDirty := true }, hrun, hnd, ?_, ?_,
    ⟨hframe.wal, hframe.file, hframe.readonly, hframe.pageSize⟩, hframe.sps, hframe.inTxn⟩
  · intro g pg hg
    have hg : cacheLookup r g = some pg := hg
    rw [hlook] at hg
    split at hg
    · rename_i hmem
      obtain ⟨pg0, hl, hsome⟩ := Option.bind_eq_some_iff.mp hg
      obtain ⟨data, himg, rfl⟩ := Option.map_eq_some_iff.mp hsome
      have hd := hcoll hmem hl
      exact Or.inr ⟨hd, himg⟩
    · exact Or.inl hg
  · have hdirty : ∀ g, (r.store c).dirty g = if g ∈ gs then sp.image g else (p.store c).dirty g := by
      intro g
      simp only [Pager.store, hlook]
      split
      · rename_i hmem
        obtain ⟨pg, hl⟩ := hcached hmem
        rw [hl]
        cases sp.image g with
        | none => rfl
        | some data => simp [hcoll hmem hl]
      · rfl
    have hbase : (r.store c).base = (p.store c).base := hframe.base c
    change (r.store c).setHdr sp.hdr = _
    rw [Store.setHdr, Store.revertTo, hbase, funext hdirty]

/-- **What a return to a savepoint does**: the collected dirty pages get their images in the
savepoint, or else the committed ones. -/
theorem CacheInv.rollbackTo (h : CacheInv c p fs tail) {level : Nat} {sp : PagerSp}
    (hsp : p.sps[level]? = some sp)
    (hlen : ∀ g data, sp.image g = some data → data.length = p.pageSize) :
    ∃ p', pagerRollbackTo p level = (.ok, p') ∧ CacheInv c p' fs tail ∧
      p'.store c = (p.store c).revertTo ((collectDirty p).map Page.pgno) sp.image sp.hdr ∧
      SameDisk p p' ∧ p'.sps = p.sps.take (level + 1) ∧ p'.inTxn = p.inTxn := by
  obtain ⟨p', hrun, hnd, hlook, hstore, hdisk, hsps, htxn⟩ := rollbackTo_of_nodup c h.nodup hsp
  refine ⟨p', hrun, ?_, hstore, hdisk, hsps, htxn⟩
  refine ⟨by rw [hdisk.wal]; exact h.log, by rw [hdisk.wal, hdisk.pageSize]; exact h.size,
    by rw [hdisk.pageSize]; exact h.size_min, by rw [hdisk.pageSize]; exact h.size_max, hnd, ?_, ?_⟩
  · intro g pg hg
    rw [hdisk.pageSize]
    rcases hlook g pg hg with hold | ⟨-, himg⟩
    · exact h.lengths g pg hold
    · exact hlen g _ himg
  · intro g pg hg hd
    rw [hdisk.base]
    rcases hlook g pg hg with hold | ⟨hdirty, -⟩
    · exact h.clean g pg hold hd
    · rw [hdirty] at hd
      cases hd

end Savepoint

/-! ## Rollback -/

section Rollback

variable {c : Codec} {p : Pager} {fs : List Frame} {tail : Bytes}

/-- The header that a rollback reads. -/
theorem CacheInv.read_hdr (h : CacheInv c p fs tail) (hc : c.Inverts) :
    (match readPageImage c p.wal p.file 1 with
      | (.ok, full) => if hasMagic full then hdrParse full else p.hdr
      | _ => p.hdr) = (p.store c).committedHdr := by
  rw [h.readImage hc]
  rfl

/-- **What a rollback does**: it drops the overlay and reloads the header. -/
theorem CacheInv.rollback (h : CacheInv c p fs tail) (hc : c.Inverts) :
    ∃ p', pagerRollback c p = (.ok, p') ∧ CacheInv c p' fs tail ∧
      p'.store c = (p.store c).rollback ∧ SameDisk p p' ∧ p'.sps = [] ∧ p'.inTxn = false := by
  set q : Pager := { p with
    cache := p.cache.filter (fun pg => !pg.dirty)
    lru := p.lru.filter (fun g => g ∉ (p.cache.filter (fun pg => pg.dirty)).map (fun pg => pg.pgno))
    } with hq
  have hlook : ∀ g, cacheLookup q g = (cacheLookup p g).filter (fun pg => !pg.dirty) :=
    fun g => Keyed.find_filter h.nodup
  have hinv : CacheInv c q fs tail := by
    refine h.of_lookups ⟨rfl, rfl, rfl, rfl, rfl, rfl⟩ (Keyed.nodup_filter h.nodup) ?_
    intro g pg hg
    rw [hlook] at hg
    exact Or.inl (Option.filter_eq_some_iff.mp hg).1
  have hhdr : (q.store c).committedHdr = (p.store c).committedHdr := rfl
  refine ⟨{ q with hdr := (p.store c).committedHdr, hdrDirty := false, inTxn := false, sps := [] },
    ?_, ?_, ?_, ⟨rfl, rfl, rfl, rfl⟩, rfl, rfl⟩
  · rw [← hhdr, ← hinv.read_hdr hc]
    rfl
  · exact hinv.congr rfl rfl rfl rfl
  · have hdirty : (q.store c).dirty = fun _ => none := by
      funext g
      simp only [Pager.store, hlook]
      cases cacheLookup p g with
      | none => rfl
      | some pg => by_cases hd : pg.dirty = true <;> simp [Option.filter, hd]
    change (q.store c).setHdr _ = _
    rw [Store.setHdr, Store.rollback, hdirty]
    rfl

end Rollback

end Tdb
