import TransactionDB.Storage.Store

/-!
# TransactionDB — the page cache refines the store

`Pager.store` forgets the cache: the dirty pages are the overlay, the log over the main
file is the base. `CacheInv` is cache coherence: no page is cached twice, and a clean
cached page is the image a fresh read would return. Under it `tdb_pager_get` reads the
store, eviction is invisible, and allocation and freeing do what the store's do.
-/

namespace Tdb

open Layout List

variable {pg : Page} {g : UInt32} {data : Bytes} {f : Page → Page}

/-- The store a pager implements. -/
def Pager.store (c : Codec) (p : Pager) : Store where
  dirty g := (cacheLookup p g).bind (fun pg => if pg.dirty then some pg.data else none)
  base g := (readPageImage c p.wal p.file g).2
  hdr := p.hdr

/-- Cache coherence, over a log with the frames `fs`. The page size is one the format
allows. -/
structure CacheInv (c : Codec) (p : Pager) (fs : List Frame) (tail : Bytes) : Prop where
  log : LogRep c p.wal fs tail
  size : p.wal.pageSize = p.pageSize
  size_min : 512 ≤ p.pageSize
  size_max : p.pageSize ≤ 65536
  nodup : (p.cache.map Page.pgno).Nodup
  lengths : ∀ g pg, cacheLookup p g = some pg → pg.data.length = p.pageSize
  clean : ∀ g pg, cacheLookup p g = some pg → pg.dirty = false → pg.data = (p.store c).base g

/-- What the operations inside a transaction leave alone. -/
structure SameFrame (p p' : Pager) : Prop where
  wal : p'.wal = p.wal
  file : p'.file = p.file
  readonly : p'.readonly = p.readonly
  inTxn : p'.inTxn = p.inTxn
  pageSize : p'.pageSize = p.pageSize
  sps : p'.sps = p.sps

theorem SameFrame.refl (p : Pager) : SameFrame p p := ⟨rfl, rfl, rfl, rfl, rfl, rfl⟩

theorem SameFrame.trans {p q r : Pager} (h : SameFrame p q) (h' : SameFrame q r) : SameFrame p r :=
  ⟨h'.wal.trans h.wal, h'.file.trans h.file, h'.readonly.trans h.readonly,
    h'.inTxn.trans h.inTxn, h'.pageSize.trans h.pageSize, h'.sps.trans h.sps⟩

theorem SameFrame.base {p p' : Pager} (h : SameFrame p p') (c : Codec) :
    (p'.store c).base = (p.store c).base := by
  simp [Pager.store, h.wal, h.file]

variable {c : Codec} {p p' : Pager} {fs : List Frame} {tail : Bytes}

/-- A pager just opened over a log has nothing cached. -/
theorem cacheInv_newPager {wal : Wal} (hlog : LogRep c wal fs tail) (hmin : 512 ≤ wal.pageSize)
    (hmax : wal.pageSize ≤ 65536) (file : File) (readonly : Bool) (hdr : DbHdr) :
    CacheInv c (newPager file wal readonly hdr) fs tail := by
  refine ⟨hlog, rfl, hmin, hmax, nodup_nil, ?_, ?_⟩
  · intro g pg hg
    cases hg
  · intro g pg hg
    cases hg

/-! ## Reading the base -/

section

variable (h : CacheInv c p fs tail) (hc : c.Inverts)

include h hc

theorem CacheInv.base_eq (g : UInt32) : (p.store c).base g = imageOf fs p.file.bytes p.pageSize g := by
  simp only [Pager.store, h.log.readImage hc, h.size]

theorem CacheInv.readImage (g : UInt32) : readPageImage c p.wal p.file g = (.ok, (p.store c).base g) := by
  simp only [Pager.store, h.log.readImage hc]

theorem CacheInv.length_base (g : UInt32) : ((p.store c).base g).length = p.pageSize := by
  rw [h.base_eq hc, imageOf]
  cases hg : lastImage fs g with
  | none => simp
  | some page => exact (length_lastImage h.log.pages hg).trans h.size

end

/-- A cached page has the image the store has. -/
theorem CacheInv.read_of_lookup (h : CacheInv c p fs tail) (hg : cacheLookup p g = some pg) :
    (p.store c).read g = pg.data := by
  have hclean := h.clean g pg hg
  unfold Store.read
  by_cases hd : pg.dirty
  · simp [Pager.store, hg, hd]
  · rw [hclean (by simpa using hd)]
    simp [Pager.store, hg, hd]

theorem dirty_of_lookup (hg : cacheLookup p g = some pg) (hd : pg.dirty = true) :
    (p.store c).dirty g = some pg.data := by
  simp [Pager.store, hg, hd]

theorem lookup_of_dirty (hg : (p.store c).dirty g = some data) :
    ∃ pg, cacheLookup p g = some pg ∧ pg.dirty = true ∧ pg.data = data := by
  obtain ⟨pg, hl, hsome⟩ := Option.bind_eq_some_iff.mp hg
  split at hsome
  · exact ⟨pg, hl, ‹_›, Option.some.inj hsome⟩
  · cases hsome

theorem CacheInv.length_dirty (h : CacheInv c p fs tail) (hg : (p.store c).dirty g = some data) :
    data.length = p.pageSize := by
  obtain ⟨pg, hl, -, rfl⟩ := lookup_of_dirty hg
  exact h.lengths g pg hl

theorem read_of_lookup_none (hg : cacheLookup p g = none) :
    (p.store c).read g = (p.store c).base g := by
  simp [Store.read, Pager.store, hg]

theorem CacheInv.pageImage_eq (h : CacheInv c p fs tail) (g : UInt32) :
    pageImage c p g = (p.store c).read g := by
  unfold pageImage
  cases hg : cacheLookup p g with
  | none => exact (read_of_lookup_none hg).symm
  | some pg => exact (h.read_of_lookup hg).symm

theorem CacheInv.length_read (h : CacheInv c p fs tail) (hc : c.Inverts) (g : UInt32) :
    ((p.store c).read g).length = p.pageSize := by
  cases hg : cacheLookup p g with
  | none => rw [read_of_lookup_none hg, h.length_base hc]
  | some pg => rw [h.read_of_lookup hg, h.lengths g pg hg]

/-! ## Ways to change the cache -/

theorem cacheLookup_modify (hf : ∀ pg, (f pg).pgno = pg.pgno) (g g' : UInt32) :
    cacheLookup (cacheModify p g f) g'
      = if g' = g then (cacheLookup p g').map f else cacheLookup p g' :=
  Keyed.find_modify hf

theorem cacheLookup_remove (g g' : UInt32) : cacheLookup (cacheRemove p g) g'
    = if g' = g then none else cacheLookup p g' :=
  Keyed.find_remove

theorem cacheLookup_new (pg : Page) (g : UInt32) : cacheLookup (pageNew p pg) g
    = if g = pg.pgno then some pg else cacheLookup p g :=
  Keyed.find_cons

theorem sameFrame_modify (g : UInt32) (f : Page → Page) : SameFrame p (cacheModify p g f) :=
  ⟨rfl, rfl, rfl, rfl, rfl, rfl⟩

theorem sameFrame_remove (g : UInt32) : SameFrame p (cacheRemove p g) :=
  ⟨rfl, rfl, rfl, rfl, rfl, rfl⟩

theorem sameFrame_new (pg : Page) : SameFrame p (pageNew p pg) :=
  ⟨rfl, rfl, rfl, rfl, rfl, rfl⟩

section

variable (h : CacheInv c p fs tail)

include h

/-- The coherence of a changed cache, from its lookups. -/
theorem CacheInv.of_lookups (hs : SameFrame p p') (hnd : (p'.cache.map Page.pgno).Nodup)
    (hpages : ∀ g pg, cacheLookup p' g = some pg → cacheLookup p g = some pg ∨ (pg.data.length = p.pageSize ∧ (pg.dirty = false → pg.data = (p.store c).base g))) :
    CacheInv c p' fs tail := by
  refine ⟨by rw [hs.wal]; exact h.log, by rw [hs.wal, hs.pageSize]; exact h.size,
    by rw [hs.pageSize]; exact h.size_min, by rw [hs.pageSize]; exact h.size_max, hnd, ?_, ?_⟩
  · intro g pg hg
    rw [hs.pageSize]
    rcases hpages g pg hg with hold | ⟨hlen, -⟩
    · exact h.lengths g pg hold
    · exact hlen
  · intro g pg hg hd
    rw [hs.base]
    rcases hpages g pg hg with hold | ⟨-, hclean⟩
    · exact h.clean g pg hold hd
    · exact hclean hd

theorem CacheInv.modify (hf : ∀ pg, (f pg).pgno = pg.pgno)
    (hpage : ∀ pg, cacheLookup p g = some pg → (f pg).data.length = p.pageSize ∧ ((f pg).dirty = false → (f pg).data = (p.store c).base g)) :
    CacheInv c (cacheModify p g f) fs tail := by
  refine h.of_lookups (sameFrame_modify g f) ?_ ?_
  · rw [cacheModify, Keyed.map_key_modify hf]
    exact h.nodup
  · intro g' pg hg
    rw [cacheLookup_modify hf] at hg
    split at hg
    · rename_i heq
      subst heq
      obtain ⟨pg0, hg0, rfl⟩ := Option.map_eq_some_iff.mp hg
      exact Or.inr (hpage pg0 hg0)
    · exact Or.inl hg

theorem CacheInv.remove (g : UInt32) :
    CacheInv c (cacheRemove p g) fs tail := by
  refine h.of_lookups (sameFrame_remove g) (Keyed.nodup_filter h.nodup) ?_
  intro g' pg hg
  rw [cacheLookup_remove] at hg
  split at hg
  · cases hg
  · exact Or.inl hg

theorem CacheInv.new (hnone : cacheLookup p pg.pgno = none) (hlen : pg.data.length = p.pageSize)
    (hclean : pg.dirty = false → pg.data = (p.store c).base pg.pgno) :
    CacheInv c (pageNew p pg) fs tail := by
  refine h.of_lookups (sameFrame_new pg) ?_ ?_
  · rw [pageNew, map_cons, nodup_cons]
    refine ⟨?_, h.nodup⟩
    intro hmem
    obtain ⟨q, hq, heq⟩ := mem_map.mp hmem
    exact Keyed.find_eq_none_iff.mp hnone q hq heq
  · intro g q hg
    rw [cacheLookup_new] at hg
    split at hg
    · rename_i heq
      cases hg
      exact Or.inr ⟨hlen, fun hd => by rw [heq]; exact hclean hd⟩
    · exact Or.inl hg

end

/-! ## Eviction -/

/-- The dirty pages in the cache, newest first. -/
def Pager.dirtyList (p : Pager) : List (UInt32 × Bytes) :=
  (p.cache.filter (fun pg => pg.dirty)).map (fun pg => (pg.pgno, pg.data))

/-- What an eviction may do: drop pages that are clean and not held. -/
structure Trimmed (p p' : Pager) : Prop where
  frame : SameFrame p p'
  hdr : p'.hdr = p.hdr
  sublist : p'.cache.Sublist p.cache
  kept : ∀ g pg, cacheLookup p' g = some pg → cacheLookup p g = some pg
  held : ∀ g pg, cacheLookup p g = some pg → pg.dirty = true ∨ pg.refs ≠ 0 →
    cacheLookup p' g = some pg
  dirtyList : p'.dirtyList = p.dirtyList

theorem Trimmed.refl (p : Pager) : Trimmed p p :=
  ⟨.refl p, rfl, .refl _, fun _ _ h => h, fun _ _ h _ => h, rfl⟩

theorem Trimmed.trans {q : Pager} (h : Trimmed p p') (h' : Trimmed p' q) : Trimmed p q :=
  ⟨h.frame.trans h'.frame, h'.hdr.trans h.hdr, h'.sublist.trans h.sublist,
    fun g pg hg => h.kept g pg (h'.kept g pg hg),
    fun g pg hg hheld => h'.held g pg (h.held g pg hg hheld) hheld,
    h'.dirtyList.trans h.dirtyList⟩

theorem trimmed_remove (hnd : (p.cache.map Page.pgno).Nodup) (hg : cacheLookup p g = some pg)
    (hrefs : pg.refs = 0) (hd : pg.dirty = false) :
    Trimmed p (cacheRemove p g) := by
  refine ⟨sameFrame_remove g, rfl, filter_sublist, ?_, ?_, ?_⟩
  · intro g' q hq
    rw [cacheLookup_remove] at hq
    split at hq
    · cases hq
    · exact hq
  · intro g' q hq hheld
    rw [cacheLookup_remove, if_neg]
    · exact hq
    · rintro rfl
      rw [hg] at hq
      cases hq
      rcases hheld with h | h
      · rw [hd] at h
        cases h
      · exact h hrefs
  · -- the removed page is not among the dirty ones
    unfold Pager.dirtyList cacheRemove
    congr 1
    rw [filter_filter]
    apply filter_congr
    intro q hq
    by_cases hqg : q.pgno = g
    · have hsame : q = pg := by
        have := Keyed.find_of_mem hnd hq
        rw [hqg] at this
        exact Option.some.inj (this.symm.trans hg)
      simp [hsame, hd]
    · simp [hqg]

/-- `cache_trim`, by induction on the pages it visits. -/
theorem trimmed_trimLoop (pgnos : List UInt32) : ∀ {p : Pager}, (p.cache.map Page.pgno).Nodup →
    Trimmed p (trimLoop p pgnos) := by
  induction pgnos with
  | nil => exact fun _ => .refl _
  | cons g rest ih =>
    intro p hnd
    unfold trimLoop
    split
    · split
      · rename_i pg hg
        split
        · rename_i hfree
          have hone := trimmed_remove hnd hg hfree.1 hfree.2
          exact hone.trans (ih (Keyed.nodup_filter hnd))
        · exact ih hnd
      · exact ih hnd
    · exact .refl _

theorem CacheInv.trimmed (h : CacheInv c p fs tail) (ht : Trimmed p p') :
    CacheInv c p' fs tail :=
  h.of_lookups ht.frame (h.nodup.sublist (ht.sublist.map _)) (fun g pg hg => Or.inl (ht.kept g pg hg))

theorem Trimmed.store (ht : Trimmed p p') (c : Codec) : p'.store c = p.store c := by
  have hdirty : (p'.store c).dirty = (p.store c).dirty := by
    funext g
    simp only [Pager.store]
    cases hg : cacheLookup p g with
    | none =>
      cases hg' : cacheLookup p' g with
      | none => rfl
      | some pg =>
        rw [ht.kept g pg hg'] at hg
        cases hg
    | some pg =>
      by_cases hd : pg.dirty = true
      · rw [ht.held g pg hg (Or.inl hd)]
      · cases hg' : cacheLookup p' g with
        | none => simp [hd]
        | some pg' =>
          rw [ht.kept g pg' hg'] at hg
          cases hg
          rfl
  have hbase := ht.frame.base c
  simp only [Pager.store] at *
  rw [hdirty, hbase, ht.hdr]

/-! ## tdb_pager_get -/

/-- Counting references changes neither the store nor the dirty pages. -/
theorem store_refs (f : Page → Page) (g : UInt32)
    (hf : ∀ pg, (f pg).pgno = pg.pgno ∧ (f pg).data = pg.data ∧ (f pg).dirty = pg.dirty) :
    (cacheModify p g f).store c = p.store c ∧
      (cacheModify p g f).dirtyList = p.dirtyList := by
  constructor
  · have hdirty : ((cacheModify p g f).store c).dirty = (p.store c).dirty := by
      funext g'
      simp only [Pager.store]
      rw [cacheLookup_modify (fun pg => (hf pg).1)]
      split
      · cases cacheLookup p g' with
        | none => rfl
        | some pg => simp [(hf pg).2.1, (hf pg).2.2]
      · rfl
    have hbase := (sameFrame_modify (p := p) g f).base c
    simp only [Pager.store] at *
    rw [hdirty, hbase]
    rfl
  · unfold Pager.dirtyList cacheModify
    induction p.cache with
    | nil => rfl
    | cons q qs ih =>
      simp only [map_cons, filter_cons]
      by_cases hq : q.pgno = g
      · simp only [hq, if_true, (hf q).2.2]
        by_cases hd : q.dirty = true
        · simp only [hd, if_true, map_cons, ih, (hf q).1, (hf q).2.1]
        · simp only [hd, if_false, Bool.false_eq_true, ih]
      · simp only [hq, if_false]
        by_cases hd : q.dirty = true
        · simp only [hd, if_true, map_cons, ih]
        · simp only [hd, if_false, Bool.false_eq_true, ih]

/-- **`tdb_pager_get` reads the store**, whatever it evicts. -/
theorem CacheInv.get (h : CacheInv c p fs tail) (hc : c.Inverts) (hg : g ≠ 0) :
    ∃ p' pg, pagerGet c p g = (.ok, p', some pg) ∧ CacheInv c p' fs tail ∧
      p'.store c = p.store c ∧ SameFrame p p' ∧ p'.dirtyList = p.dirtyList ∧
      cacheLookup p' g = some pg ∧ pg.data = (p.store c).read g := by
  unfold pagerGet
  rw [if_neg hg]
  cases hl : cacheLookup p g with
  | some pg =>
    set q : Pager := { p with lru := g :: p.lru.filter (fun g' => g' ≠ g) } with hq
    set f : Page → Page := fun pg => { pg with refs := pg.refs + 1 } with hf
    have hinv : CacheInv c q fs tail := ⟨h.log, h.size, h.size_min, h.size_max, h.nodup, h.lengths, h.clean⟩
    obtain ⟨hstore, hdl⟩ := store_refs (p := q) (c := c) f g (fun pg => ⟨rfl, rfl, rfl⟩)
    refine ⟨cacheModify q g f, f pg, rfl, ?_, hstore, ⟨rfl, rfl, rfl, rfl, rfl, rfl⟩, hdl, ?_, ?_⟩
    · exact hinv.modify (fun _ => rfl) (fun pg hpg => ⟨hinv.lengths g pg hpg, hinv.clean g pg hpg⟩)
    · rw [cacheLookup_modify (f := f) (fun _ => rfl), if_pos rfl]
      exact congrArg (Option.map f) hl
    · exact (h.read_of_lookup hl).symm
  | none =>
    rw [h.readImage hc]
    simp only
    set pg : Page := ⟨g, (p.store c).base g, false, 1⟩ with hpg
    have hnew : CacheInv c (pageNew p pg) fs tail :=
      h.new hl (h.length_base hc g) (fun _ => rfl)
    have hlook : cacheLookup (pageNew p pg) g = some pg := by
      rw [cacheLookup_new, if_pos rfl]
    have ht : Trimmed (pageNew p pg) (cacheTrim (pageNew p pg)) := trimmed_trimLoop _ hnew.nodup
    have hstore : (pageNew p pg).store c = p.store c := by
      have hdirty : ((pageNew p pg).store c).dirty = (p.store c).dirty := by
        funext g'
        simp only [Pager.store]
        rw [cacheLookup_new]
        split
        · rename_i heq
          rw [show g' = g from heq, hl]
          rfl
        · rfl
      simp only [Pager.store] at *
      rw [hdirty]
      rfl
    have hdl : (pageNew p pg).dirtyList = p.dirtyList := by
      simp [Pager.dirtyList, pageNew, hpg]
    refine ⟨cacheTrim (pageNew p pg), pg, rfl, hnew.trimmed ht, (ht.store c).trans hstore,
      (sameFrame_new pg).trans ht.frame, ht.dirtyList.trans hdl,
      ht.held g pg hlook (Or.inr (by simp [hpg])), ?_⟩
    exact (read_of_lookup_none hl).symm

/-! ## Writing a cached page -/

theorem cacheModify_modify {f' : Page → Page} (hf : ∀ pg, (f pg).pgno = pg.pgno) (g : UInt32) :
    cacheModify (cacheModify p g f) g f' = cacheModify p g (f' ∘ f) := by
  unfold cacheModify
  simp only [map_map]
  congr 2
  funext pg
  by_cases hg : pg.pgno = g
  · simp [hg, hf]
  · simp [hg]

section

variable (h : CacheInv c p fs tail) (hg : cacheLookup p g = some pg) (hlen : data.length = p.pageSize)

include h hg hlen

/-- A cached page made dirty with new contents. -/
theorem CacheInv.put (hf : ∀ pg, (f pg).pgno = pg.pgno ∧ (f pg).data = data ∧ (f pg).dirty = true) :
    CacheInv c (cacheModify p g f) fs tail ∧
      (cacheModify p g f).store c = (p.store c).write g data := by
  constructor
  · refine h.modify (fun pg => (hf pg).1) (fun pg _ => ⟨by rw [(hf pg).2.1]; exact hlen, ?_⟩)
    intro hd
    rw [(hf pg).2.2] at hd
    cases hd
  · have hdirty : ((cacheModify p g f).store c).dirty = ((p.store c).write g data).dirty := by
      funext g'
      simp only [Pager.store, Store.write]
      rw [cacheLookup_modify (fun pg => (hf pg).1)]
      by_cases heq : g' = g
      · subst heq
        simp [hg, (hf pg).2.1, (hf pg).2.2]
      · rw [if_neg heq, Function.update_of_ne heq]
    have hbase := (sameFrame_modify (p := p) g f).base c
    simp only [Pager.store, Store.write] at *
    rw [hdirty, hbase]
    rfl

theorem CacheInv.putPage (hro : p.readonly = false) :
    CacheInv c (putPage p g data) fs tail ∧
      (Tdb.putPage p g data).store c = (p.store c).write g data ∧
      SameFrame p (Tdb.putPage p g data) := by
  have hro' : (setData p g data).readonly = false := hro
  have heq : Tdb.putPage p g data
      = cacheModify p g (fun pg => { pg with data := data, dirty := true, refs := pg.refs - 1 }) := by
    unfold Tdb.putPage pagerUnref pagerWrite
    rw [hro']
    simp only [Bool.false_eq_true, if_false]
    rw [setData, cacheModify_modify (by intro _; rfl), cacheModify_modify (by intro _; rfl)]
    rfl
  rw [heq]
  obtain ⟨hinv, hstore⟩ := h.put hg hlen
    (f := fun pg => { pg with data := data, dirty := true, refs := pg.refs - 1 })
    (fun pg => ⟨rfl, rfl, rfl⟩)
  exact ⟨hinv, hstore, sameFrame_modify g _⟩

end

/-- Only the cache, the files and the page size matter to coherence. -/
theorem CacheInv.congr (h : CacheInv c p fs tail) (hcache : p'.cache = p.cache)
    (hwal : p'.wal = p.wal) (hfile : p'.file = p.file) (hps : p'.pageSize = p.pageSize) :
    CacheInv c p' fs tail := by
  obtain ⟨file, wal, readonly, inTxn, pageSize, hdr, hdrDirty, cache, lru, sps⟩ := p'
  cases hcache
  cases hwal
  cases hfile
  cases hps
  exact ⟨h.log, h.size, h.size_min, h.size_max, h.nodup, h.lengths, h.clean⟩

/-- The header is not part of the cache. -/
theorem CacheInv.setHdr (h : CacheInv c p fs tail) (hdr : DbHdr) :
    CacheInv c (p.setHdr hdr) fs tail :=
  ⟨h.log, h.size, h.size_min, h.size_max, h.nodup, h.lengths, h.clean⟩

theorem store_setHdr (hdr : DbHdr) : (p.setHdr hdr).store c = (p.store c).setHdr hdr := rfl

theorem sameFrame_setHdr (hdr : DbHdr) : SameFrame p (p.setHdr hdr) := ⟨rfl, rfl, rfl, rfl, rfl, rfl⟩

theorem CacheInv.unref (h : CacheInv c p fs tail) (g : UInt32) :
    CacheInv c (pagerUnref p g) fs tail ∧ (pagerUnref p g).store c = p.store c :=
  ⟨h.modify (fun _ => rfl) (fun pg hpg => ⟨h.lengths g pg hpg, h.clean g pg hpg⟩),
    (store_refs (fun pg => { pg with refs := pg.refs - 1 }) g (fun _ => ⟨rfl, rfl, rfl⟩)).1⟩

end Tdb
