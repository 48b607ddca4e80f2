import TransactionDB.Storage.PagerRuns

/-!
# TransactionDB — opening a database

`DbFiles` describes the two files a database consists of between sessions: a log whose
frames are whole transactions, and copies of the header page that agree on the page size.
Opening such files gives a pager with the invariant of `PagerRuns`, an empty cache and, if
it is writable, a stored header page.
-/

namespace Tdb

open Layout

variable {c : Codec} {pageSize : Nat} {fs : List Frame}

variable {tail : Bytes} {p : Pager}

/-- The bytes of a log file with the committed frames `fs`: not even a header yet, or a
header, the frames, and bytes that recovery passes over. -/
inductive LogFile (c : Codec) (pageSize : Nat) : Bytes → List Frame → Prop where
  | short (bytes : Bytes) (hshort : bytes.length < 32) : LogFile c pageSize bytes []
  | frames (w : Wal) (fs : List Frame) (tail : Bytes) (hsize : w.pageSize = pageSize)
      (hpages : ∀ f ∈ fs, f.page.length = w.pageSize) (hpgnos : ∀ f ∈ fs, f.pgno.toNat < 2 ^ 31)
      (hsealed : Sealed fs) (hsound : TailSound c w.cfg tail) :
      LogFile c pageSize (walHeader w ++ (encFrames c w.cfg w.salt1 fs ++ tail)) fs

/-- The files of a database. -/
structure DbFiles (c : Codec) (file wal : Bytes) (pageSize : Nat) (fs : List Frame) : Prop where
  size_min : 512 ≤ pageSize
  size_max : pageSize ≤ 65536
  size : openPageSize ⟨file, []⟩ ⟨wal, []⟩ = pageSize
  log : LogFile c pageSize wal fs
  frames_hdr : ∀ f ∈ fs, f.pgno = 1 → IsHeader pageSize f.page
  file_hdr : hasMagic (dbPage file pageSize 1) = true → IsHeader pageSize (dbPage file pageSize 1)

/-- Opening a log file. -/
theorem LogFile.open {bytes : Bytes} (h : LogFile c pageSize bytes fs) (hc : c.Inverts)
    (hps : pageSize < 2 ^ 32) :
    ∃ w tail, walOpen c ⟨bytes, []⟩ pageSize = (.ok, w) ∧ LogRep c w fs tail ∧
      TailSound c w.cfg tail ∧ w.pageSize = pageSize ∧ w.dbSize = lastDbSize fs ∧
      w.file.fail = [] := by
  cases h with
  | short _ hshort =>
    obtain ⟨w, hopen, hfail, hsize, hdb, -, hrep⟩ := walOpen_fresh (c := c) hps
      (show (⟨bytes, []⟩ : File).fail = [] from rfl) hshort
    exact ⟨w, [], hopen, hrep, tailSound_nil _ _, hsize, hdb, hfail⟩
  | frames w _ tail hsize hpages hpgnos hsealed hsound =>
    subst hsize
    obtain ⟨w1, hopen, hfile, hcfg, -, hdb, hrep⟩ := walOpen_rep hc hps
      (show (⟨walHeader w ++ (encFrames c w.cfg w.salt1 fs ++ tail), []⟩ : File).bytes = _ from rfl)
      hpages hpgnos (hsound.inert _) rfl
    have hloose : looseFrames fs = [] := by
      have happ := committed_append_loose fs
      rw [hsealed] at happ
      simpa using happ
    rw [hsealed, hloose, encFrames, List.nil_append] at hrep
    refine ⟨w1, tail, hopen, hrep, by rw [hcfg]; exact hsound, Wal.pageSize_of_cfg hcfg, hdb, ?_⟩
    rw [hfile]

/-- The probe of `tdb_pager_open` reads the start of page 1. -/
theorem probe_eq {file : File} (hps : 100 ≤ pageSize) :
    fileRead file 100 0 = (dbPage file.bytes pageSize 1).take 100 := by
  have h1 : dbOffset pageSize 1 = 0 := by simp [dbOffset]
  unfold fileRead dbPage
  rw [h1]
  apply List.ext_getElem?
  intro i
  rw [List.getElem?_take, getElem?_readPad, getElem?_readPad]
  by_cases hi : i < 100
  · simp [hi, show i < pageSize by omega]
  · simp [hi]

/-- The header found in the main file is that of its page 1. -/
theorem fileHdr_eq_some {file : File} {hdr : DbHdr} (hps : 100 ≤ pageSize)
    (h : fileHdr file = some hdr) :
    hasMagic (dbPage file.bytes pageSize 1) = true ∧ hdrParse (dbPage file.bytes pageSize 1) = hdr := by
  unfold fileHdr at h
  simp only [probe_eq hps, hasMagic_take, hdrParse_take] at h
  split at h
  · rename_i hcond
    exact ⟨hcond.2, Option.some.inj h⟩
  · cases h

theorem le_length_of_fileHdr {file : File} {hdr : DbHdr} (h : fileHdr file = some hdr) :
    100 ≤ file.bytes.length := by
  unfold fileHdr at h
  simp only at h
  split at h
  · rename_i hcond
    exact hcond.1
  · cases h

/-- A log with a header page in it. -/
theorem walHdr_eq_some {w : Wal} {hdr : DbHdr} (hc : c.Inverts) (hrep : LogRep c w fs tail)
    (h : walHdr c w = some hdr) :
    ∃ f ∈ fs, f.pgno = 1 ∧ hdrParse f.page = hdr := by
  unfold walHdr at h
  rw [hrep.readPage hc] at h
  cases himg : lastImage fs 1 with
  | none =>
    rw [himg] at h
    cases h
  | some page =>
    obtain ⟨f, hf, h1, rfl⟩ := mem_of_lastImage himg
    simp only [himg] at h
    split at h
    · exact ⟨f, hf, h1, Option.some.inj h⟩
    · cases h

/-- The first image of page 1 that a database has. -/
theorem hasMagic_imageOf {db : Bytes} (hframes : ∀ f ∈ fs, f.pgno = 1 → IsHeader pageSize f.page)
    (hor : (∃ f ∈ fs, f.pgno = 1) ∨ hasMagic (dbPage db pageSize 1) = true) :
    hasMagic (imageOf fs db pageSize 1) = true := by
  unfold imageOf
  cases himg : lastImage fs 1 with
  | some page =>
    obtain ⟨f, hf, h1, rfl⟩ := mem_of_lastImage himg
    exact (hframes f hf h1).1
  | none =>
    rcases hor with ⟨f, hf, h1⟩ | hmagic
    · rw [lastImage_eq_none_iff] at himg
      exact absurd h1 (himg f hf)
    · exact hmagic

/-- **Opening the files of a database.** -/
theorem DbFiles.open {file wal : Bytes} (h : DbFiles c file wal pageSize fs) (hc : c.Inverts)
    {readonly : Bool} (hrun : pagerOpen c ⟨file, []⟩ ⟨wal, []⟩ readonly = (.ok, p)) :
    (∃ fs' tail, PagerInv c p fs' tail) ∧ (∀ pg ∈ p.cache, pg.dirty = false) ∧
      p.readonly = readonly ∧ (p.readonly = false → hasMagic ((p.store c).base 1) = true ∧ HasPageOne c p) := by
  have hmin := h.size_min
  have hmax := h.size_max
  obtain ⟨w, tail, hopen, hrep, hsound, hsize, -, hfail⟩ := h.log.open hc (by omega)
  have hinv : ∀ hdr : DbHdr, hdr.pageSize.toNat = pageSize →
      PagerInv c (newPager ⟨file, []⟩ w readonly hdr) fs tail := by
    intro hdr hhdr
    have hnew := cacheInv_newPager hrep (by omega) (by omega) ⟨file, []⟩ readonly hdr
    refine ⟨hnew, hsound, hhdr.trans hsize.symm, ?_, ?_, ?_, ?_, hfail, rfl⟩
    · intro sp hsp
      cases hsp
    · intro sp hsp
      cases hsp
    · rw [show (newPager ⟨file, []⟩ w readonly hdr).pageSize = pageSize from hsize]
      exact h.frames_hdr
    · rw [show (newPager ⟨file, []⟩ w readonly hdr).pageSize = pageSize from hsize]
      exact h.file_hdr
  unfold pagerOpen at hrun
  simp only [h.size, hopen] at hrun
  split at hrun
  · -- a header in the main file or in the log
    rename_i hdr hor
    cases hrun
    have hhdr : hdr.pageSize.toNat = pageSize ∧
        ((∃ f ∈ fs, f.pgno = 1) ∨
          (hasMagic (dbPage file pageSize 1) = true ∧ 100 ≤ file.length)) := by
      cases hf : fileHdr ⟨file, []⟩ with
      | some hdr' =>
        rw [hf] at hor
        cases hor
        obtain ⟨hmagic, -⟩ := fileHdr_eq_some (show 100 ≤ pageSize by omega) hf
        have hs := h.size
        rw [openPageSize, hf] at hs
        exact ⟨hs, Or.inr ⟨hmagic, le_length_of_fileHdr hf⟩⟩
      | none =>
        rw [hf] at hor
        obtain ⟨f, hf1, h1, rfl⟩ := walHdr_eq_some hc hrep hor
        exact ⟨(h.frames_hdr f hf1 h1).2, Or.inl ⟨f, hf1, h1⟩⟩
    have hinv' := hinv (if w.dbSize ≠ 0 then { hdr with dbSize := w.dbSize } else hdr)
      (by split <;> exact hhdr.1)
    refine ⟨⟨fs, tail, hinv'⟩, ?_, rfl, fun _ => ?_⟩
    · intro pg hpg
      cases hpg
    · rw [hinv'.base_eq hc, show (newPager _ w readonly _).pageSize = pageSize from hsize]
      exact ⟨hasMagic_imageOf h.frames_hdr (hhdr.2.imp_right And.left),
        (hinv'.hasPageOne_iff hc).mpr (hhdr.2.symm.imp And.right (fun ⟨f, hf, h1⟩ hnone =>
          lastImage_eq_none_iff.mp hnone f hf h1))⟩
  · -- a brand-new database
    rename_i hnone
    have hinv' := hinv (newHdr pageSize) (by
      simp only [newHdr, UInt32.toNat_ofNat']
      exact Nat.mod_eq_of_lt (by omega))
    split at hrun
    · rename_i hro
      cases hrun
      refine ⟨⟨fs, tail, hinv'⟩, ?_, rfl, fun hw => ?_⟩
      · intro pg hpg
        cases hpg
      · rw [show (newPager _ w readonly _).readonly = readonly from rfl, hro] at hw
        cases hw
    · have hbegin := (hinv'.op hc .begin).1
      obtain ⟨q, pages, fs', tail', -, hspec, hp, hstore, wal', file', rfl⟩ := hbegin.commit hc hrun
      have hfit : (PagerOp.begin.run c (newPager ⟨file, []⟩ w readonly (newHdr pageSize))).otherDirty
          + 1 ≤ dirtyMax := by
        have hcache0 : (PagerOp.begin.run c (newPager ⟨file, []⟩ w readonly (newHdr pageSize))).cache
            = [] := by
          change (pagerBegin _).2.cache = []
          unfold pagerBegin
          split <;> rfl
        simp [Pager.otherDirty, hcache0, dirtyMax]
      refine ⟨⟨fs', tail', hp⟩, ?_, ?_, fun _ => ?_⟩
      · exact hspec.none_dirty hfit
      · exact hspec.readonly.trans (hinv'.op hc .begin).2.readonly
      · rw [hstore]
        exact ⟨hbegin.stored_commit hspec hc (Or.inr hfit),
          hbegin.commit_hasPageOne hc hrun (Or.inr hfit)⟩

/-! ## An empty database -/

theorem hasMagic_zeros (n : Nat) : hasMagic (zeros n) = false := by
  have hhead : ∀ x ∈ slice (zeros n) 0 14, x = 0 := by
    intro x hx
    simp only [slice, zeros, List.drop_zero, List.take_replicate, List.mem_replicate] at hx
    exact hx.2
  simp only [hasMagic, decide_eq_false_iff_not]
  intro heq
  rw [heq] at hhead
  exact absurd (hhead 84 (by decide)) (by decide)

theorem dbFiles_empty (c : Codec) : DbFiles c [] [] 4096 [] := by
  refine ⟨by decide, by decide, rfl, .short [] (by decide), by simp, fun h => ?_⟩
  rw [dbPage, readPad_nil] at h
  exact absurd h (by rw [show List.replicate 4096 0 = zeros 4096 from rfl, hasMagic_zeros]; decide)

/-- Opening two empty files creates a database: the header page is committed. -/
theorem pagerOpen_empty (hc : c.Inverts) :
    ∃ p, pagerOpen c ⟨[], []⟩ ⟨[], []⟩ false = (.ok, p) ∧ p.readonly = false ∧ p.pageSize = 4096 ∧
      p.hdr = { newHdr 4096 with changeCounter := 1 } ∧ (∀ g, (p.store c).dirty g = none) ∧
      ∀ g, g ≠ 1 → (p.store c).base g = zeros 4096 := by
  obtain ⟨w, tail, hopen, hrep, hsound, hsize, hdb, hfail⟩ :=
    (dbFiles_empty c).log.open hc (by decide)
  have hinv := cacheInv_newPager hrep (by omega) (by omega) ⟨[], []⟩ false (newHdr 4096)
  set p0 := newPager ⟨[], []⟩ w false (newHdr 4096) with hp0
  have hp : PagerInv c { p0 with inTxn := true } [] tail := by
    refine ⟨hinv.congr rfl rfl rfl rfl, hsound, hsize.symm, ?_, ?_, by simp, ?_, hfail, rfl⟩
    · intro sp hsp
      cases hsp
    · intro sp hsp
      cases hsp
    · rw [show ({ p0 with inTxn := true } : Pager).pageSize = 4096 from hsize]
      exact (dbFiles_empty c).file_hdr
  obtain ⟨q, hcommit, -, -, hro, hps, hstore⟩ := hp.commit_small hc rfl (S := [])
    (by intro g data hg; cases hg) (by simp) (by simp)
  refine ⟨q, ?_, hro, hps.trans hsize, hdr_of_store hstore, ?_, ?_⟩
  · have hmagic : walHdr c w = none := by
      cases hw : walHdr c w with
      | none => rfl
      | some hdr =>
        obtain ⟨f, hf, -⟩ := walHdr_eq_some hc hrep hw
        cases hf
    unfold pagerOpen
    simp only [(dbFiles_empty c).size, hopen, hmagic]
    exact hcommit
  · rw [hstore]
    exact fun _ => rfl
  · intro g hg
    rw [hstore]
    change (Store.flush _).read g = _
    rw [Store.read_flush_ne _ hg]
    change (Pager.store c { p0 with inTxn := true }).base g = _
    rw [hp.base_eq hc, show ({ p0 with inTxn := true } : Pager).pageSize = 4096 from hsize]
    exact readPad_nil 0 _ _

/-! ## Reachable pagers -/

/-- The pagers a client can reach on a disk without errors. -/
inductive PagerRun (c : Codec) : Pager → Prop where
  | opened (file wal : Bytes) (pageSize : Nat) (fs : List Frame) (readonly : Bool) (p : Pager)
      (hfiles : DbFiles c file wal pageSize fs)
      (hopen : pagerOpen c ⟨file, []⟩ ⟨wal, []⟩ readonly = (.ok, p)) : PagerRun c p
  | op (p : Pager) (op : PagerOp) (hrun : PagerRun c p) : PagerRun c (op.run c p)
  | commit (p p' : Pager) (hrun : PagerRun c p) (hcommit : pagerCommit c p = (.ok, p')) :
      PagerRun c p'
  | rollback (p : Pager) (hrun : PagerRun c p) : PagerRun c (pagerRollback c p).2
  | checkpoint (p : Pager) (hrun : PagerRun c p) : PagerRun c (pagerCheckpoint c p).2

section

variable (h : PagerInv c p fs tail) (hc : c.Inverts)

include h hc

theorem PagerInv.checkpoint :
    ∃ p' fs' tail', pagerCheckpoint c p = (.ok, p') ∧ PagerInv c p' fs' tail' ∧
      p'.store c = p.store c ∧ p'.readonly = p.readonly := by
  unfold pagerCheckpoint
  split
  · exact ⟨p, fs, tail, rfl, h, rfl, rfl⟩
  · split
    · exact ⟨p, fs, tail, rfl, h, rfl, rfl⟩
    · obtain ⟨rc, wal, file, hrun⟩ : ∃ rc wal file,
          Tdb.walCheckpoint c p.wal p.file = (rc, wal, file) := ⟨_, _, _, rfl⟩
      obtain ⟨rfl, hinv, hstore⟩ := h.walCheckpoint hc hrun
      refine ⟨_, [], [], ?_, hinv, hstore, rfl⟩
      simp only [hrun]

/-- Closing empties the log, and the header lies in the main file. -/
theorem PagerInv.close (hro : p.readonly = false) (hone : HasPageOne c p) :
    ∃ p' tail', pagerClose c p = (p'.file, p'.wal.file) ∧ PagerInv c p' [] tail' ∧
      p'.store c = p.store c ∧ 100 ≤ p'.file.bytes.length := by
  unfold pagerClose pagerCheckpoint
  simp only [hro, Bool.false_eq_true, if_false]
  split
  · -- nothing to copy
    rename_i hframes
    have hnil : fs = [] := List.length_eq_zero_iff.mp (h.log.nframe.symm.trans hframes)
    subst hnil
    refine ⟨p, tail, rfl, h, rfl, ?_⟩
    rcases (h.hasPageOne_iff hc).mp hone with hlen | hlog
    · exact hlen
    · exact absurd rfl hlog
  · obtain ⟨rc, wal, file, hrun⟩ : ∃ rc wal file,
        Tdb.walCheckpoint c p.wal p.file = (rc, wal, file) := ⟨_, _, _, rfl⟩
    obtain ⟨-, hinv, hstore⟩ := h.walCheckpoint hc hrun
    refine ⟨_, [], ?_, hinv, hstore, h.checkpoint_hasPageOne hc hrun hone⟩
    simp only [hrun]

/-- A database that was closed and opened again has the header of its page 1. -/
theorem PagerInv.close_open (hro : p.readonly = false) (hmagic : hasMagic ((p.store c).base 1) = true)
    (hone : HasPageOne c p) :
    ∃ p2, pagerOpen c (pagerClose c p).1 (pagerClose c p).2 false = (.ok, p2) ∧
      p2.readonly = false ∧ p2.hdr = hdrParse ((p.store c).base 1) := by
  obtain ⟨p', tail', hclose, h', hstore, hlen⟩ := h.close hc hro hone
  have hmin := h'.size_min
  have hwal : p'.wal.file = ⟨p'.wal.file.bytes, []⟩ := by rw [← h'.wal_fail]
  have hpage : dbPage p'.file.bytes p'.pageSize 1 = (p.store c).base 1 := by
    rw [← hstore, h'.base_eq hc]
    rfl
  have hhdr : fileHdr p'.file = some (hdrParse ((p.store c).base 1)) := by
    unfold fileHdr
    simp only [probe_eq (show 100 ≤ p'.pageSize by omega), hasMagic_take, hdrParse_take, hpage,
      hmagic, hlen, and_self, if_true]
  obtain ⟨w, tail2, hopen, -, -, -, -, hdb⟩ := h'.log.reopen hc rfl h'.sound
  have hsize : openPageSize p'.file p'.wal.file = p'.wal.pageSize := by
    rw [openPageSize, hhdr, h'.size, ← hpage]
    exact (h'.file_hdr (by rw [hpage]; exact hmagic)).2
  have hdb0 : w.dbSize = 0 := hdb
  rw [hclose]
  refine ⟨newPager p'.file w false (hdrParse ((p.store c).base 1)), ?_, rfl, rfl⟩
  unfold pagerOpen
  simp only [hsize]
  rw [hwal, hopen]
  simp only [hhdr, Option.some_or, hdb0, ne_eq, not_true_eq_false, if_false]

end

/-- **Every reachable pager** has the invariant: by induction on its history. -/
theorem PagerRun.inv (hc : c.Inverts) (hrun : PagerRun c p) :
    ∃ fs tail, PagerInv c p fs tail := by
  induction hrun with
  | opened file wal pageSize fs readonly p hfiles hopen => exact (hfiles.open hc hopen).1
  | op p op _ ih =>
    obtain ⟨fs, tail, h⟩ := ih
    exact ⟨fs, tail, (h.op hc op).1⟩
  | commit p p' _ hcommit ih =>
    obtain ⟨fs, tail, h⟩ := ih
    obtain ⟨-, -, fs', tail', -, -, h', -⟩ := h.commit hc hcommit
    exact ⟨fs', tail', h'⟩
  | rollback p _ ih =>
    obtain ⟨fs, tail, h⟩ := ih
    obtain ⟨p', hroll, h', -⟩ := h.rollback hc
    rw [hroll]
    exact ⟨fs, tail, h'⟩
  | checkpoint p _ ih =>
    obtain ⟨fs, tail, h⟩ := ih
    obtain ⟨p', fs', tail', hckpt, h', -⟩ := h.checkpoint hc
    rw [hckpt]
    exact ⟨fs', tail', h'⟩

end Tdb
