import TransactionDB.Storage.PagerCommit

/-!
# TransactionDB — what a crash leaves of a pager

After a crash only the two files are left. Reopening the log gives the frames up to the
last commit, and pages are read from them, or else from the main file. A log is sealed when
its last frame is a commit: then a crash loses nothing.
-/

namespace Tdb

open Layout List

variable {c : Codec} {w : Wal} {fs : List Frame} {tail : Bytes}

/-- The last frame is a commit: recovery keeps all of them. -/
def Sealed (fs : List Frame) : Prop := committedFrames fs = fs

theorem sealed_commit {dbSize : UInt32} (hdb : dbSize ≠ 0) (fs : List Frame)
    {pages : List (UInt32 × Bytes)} (hne : pages ≠ []) :
    Sealed (fs ++ commitFrames dbSize pages) ∧
      lastDbSize (fs ++ commitFrames dbSize pages) = dbSize := by
  obtain ⟨init, last, heq, hlast, -⟩ := commitFrames_split dbSize hne
  have hne' : last.dbSize ≠ 0 := by rw [hlast]; exact hdb
  constructor
  · rw [Sealed, heq, ← append_assoc, committedFrames_append, if_pos hne']
  · rw [heq, ← append_assoc, lastDbSize_append, if_pos hne', hlast]

/-- Reopening the file of a sealed log gives the same frames. -/
theorem LogRep.reopen (h : LogRep c w fs tail) (hc : c.Inverts) (hs : Sealed fs)
    (ht : TailSound c w.cfg tail) :
    ∃ w1 tail1, walOpen c ⟨w.file.bytes, []⟩ w.pageSize = (.ok, w1) ∧
      w1.file = ⟨w.file.bytes, []⟩ ∧ LogRep c w1 fs tail1 ∧ TailSound c w1.cfg tail1 ∧
      w1.cfg = w.cfg ∧ w1.dbSize = lastDbSize fs := by
  obtain ⟨w1, hopen, hfile, hcfg, -, hdb, hrep⟩ := walOpen_rep hc h.size_lt
    (show (⟨w.file.bytes, []⟩ : File).bytes = _ from h.bytes) h.pages h.pgnos (ht.inert _) rfl
  have hloose : looseFrames fs = [] := by
    have happ := committed_append_loose fs
    rw [hs] at happ
    simpa using happ
  rw [hs, hloose, encFrames, nil_append] at hrep
  exact ⟨w1, tail, hopen, hfile, hrep, by rw [hcfg]; exact ht, hcfg, hdb⟩

/-- Reopening a file that holds only some first bytes of a log header gives an empty log. -/
theorem walOpen_header (hc : c.Inverts) (hps : w.pageSize < 2 ^ 32) {m : Nat} :
    ∃ w1, walOpen c ⟨(walHeader w).take m, []⟩ w.pageSize = (.ok, w1) ∧
      LogRep c w1 [] [] ∧ w1.pageSize = w.pageSize ∧ w1.dbSize = 0 := by
  by_cases hm : m < 32
  · obtain ⟨w1, hopen, -, hsize, hdb, -, hrep⟩ := walOpen_fresh (c := c) hps
      (show (⟨(walHeader w).take m, []⟩ : File).fail = [] from rfl) (by simp; omega)
    exact ⟨w1, hopen, hrep, hsize, hdb⟩
  · have htake : (walHeader w).take m = walHeader w := take_of_length_le (by simp; omega)
    have hbytes : (⟨(walHeader w).take m, []⟩ : File).bytes
        = walHeader w ++ (encFrames c w.cfg w.salt1 [] ++ []) := by
      rw [encFrames, append_nil, append_nil]
      exact htake
    obtain ⟨w1, hopen, -, hcfg, -, hdb, hrep⟩ := walOpen_rep hc hps hbytes (by simp) (by simp)
      ((tailSound_nil _ _).inert _) rfl
    exact ⟨w1, hopen, hrep, Wal.pageSize_of_cfg hcfg, hdb⟩

theorem walReadPage_empty (hmap : w.map = []) (g : UInt32) : walReadPage c w g = (.ok, none) := by
  unfold walReadPage
  simp [hmap]

/-! ## Images before and after a crash -/

/-- A log file and a main file from which every page is recovered as `img` says. -/
def Recovers (c : Codec) (wal db : Bytes) (pageSize : Nat) (img : UInt32 → Bytes) : Prop :=
  ∃ w, walOpen c ⟨wal, []⟩ pageSize = (.ok, w) ∧
    ∀ g, readPageImage c w ⟨db, []⟩ g = (.ok, img g)

theorem LogRep.recovers (h : LogRep c w fs tail) (hc : c.Inverts) (hs : Sealed fs)
    (ht : TailSound c w.cfg tail) (db : Bytes) :
    Recovers c w.file.bytes db w.pageSize (imageOf fs db w.pageSize) := by
  obtain ⟨w1, tail1, hopen, -, hrep, -, hcfg, -⟩ := h.reopen hc hs ht
  refine ⟨w1, hopen, fun g => ?_⟩
  rw [hrep.readImage hc, Wal.pageSize_of_cfg hcfg]

/-- Over the old frames, the images in the checkpointed main file are the old ones. -/
theorem imageOf_checkpointed {db db' : File} {pageSize : Nat}
    (hkeep : ∀ g, lastImage fs g = none →
      dbPage db'.bytes pageSize g = dbPage db.bytes pageSize g) (g : UInt32) :
    imageOf fs db'.bytes pageSize g = imageOf fs db.bytes pageSize g := by
  unfold imageOf
  cases hg : lastImage fs g with
  | some page => rfl
  | none => exact hkeep g hg

section

variable (h : LogRep c w fs tail) (hc : c.Inverts) {db db' : File} {w' : Wal} {rc : Status}
  (hrun : walCheckpoint c w db = (rc, w', db'))

include h hc hrun

/-- A checkpoint changes no page image for readers, however far it gets and whatever fails
in it. -/
theorem LogRep.checkpoint_read (g : UInt32) :
    readPageImage c w' db' g = (.ok, imageOf fs db.bytes w.pageSize g) := by
  obtain ⟨hkeep, hcases⟩ := h.checkpoint_spec hc hrun
  rcases hcases with ⟨-, rfl⟩ | ⟨hcopied, htrunc⟩
  · rw [h.readImage hc, imageOf_checkpointed hkeep]
  · -- the main file alone has the images
    have hread : ∀ w1 : Wal, w1.map = [] → w1.pageSize = w.pageSize →
        readPageImage c w1 db' g = (.ok, imageOf fs db.bytes w.pageSize g) := by
      intro w1 hmap hsize
      simp only [readPageImage, walReadPage_empty hmap, fileRead, hsize]
      exact congrArg (Prod.mk Status.ok) (hcopied.imageOf hkeep g)
    obtain ⟨r, hr⟩ : ∃ r, r = walReset w := ⟨_, rfl⟩
    have hmap : r.map = [] := by rw [hr, walReset_map]
    have hsize : r.pageSize = w.pageSize := by rw [hr, walReset_pageSize]
    rw [← hr] at htrunc
    rcases truncateLog_spec htrunc with ⟨-, file, rfl, -⟩ | ⟨file, -, rfl⟩
    · exact hread { r with file := file } hmap hsize
    · exact hread { r with file := file, endOff := 32 } hmap hsize

/-- Nor does it change what a crash leaves, if the log was sealed. -/
theorem LogRep.checkpoint_recovers (hs : Sealed fs) (ht : TailSound c w.cfg tail) :
    Recovers c w'.file.bytes db'.bytes w.pageSize (imageOf fs db.bytes w.pageSize) := by
  obtain ⟨hkeep, hcases⟩ := h.checkpoint_spec hc hrun
  have himg : imageOf fs db'.bytes w.pageSize = imageOf fs db.bytes w.pageSize :=
    funext (imageOf_checkpointed hkeep)
  rcases hcases with ⟨-, rfl⟩ | ⟨hcopied, htrunc⟩
  · rw [← himg]
    exact h.recovers hc hs ht db'.bytes
  · obtain ⟨r, hr⟩ : ∃ r, r = walReset w := ⟨_, rfl⟩
    have hsize : r.pageSize = w.pageSize := by rw [hr, walReset_pageSize]
    have hfile : r.file = w.file := by rw [hr, walReset_file]
    rw [← hr] at htrunc
    have hfresh : ∀ m, Recovers c ((walHeader r).take m) db'.bytes w.pageSize
        (imageOf fs db.bytes w.pageSize) := by
      intro m
      obtain ⟨w1, hopen, hrep, hsize1, -⟩ := walOpen_header (w := r) hc
        (by rw [hsize]; exact h.size_lt) (m := m)
      rw [hsize] at hopen hsize1
      refine ⟨w1, hopen, fun g => ?_⟩
      rw [hrep.readImage hc, hsize1]
      exact congrArg (Prod.mk Status.ok) (hcopied.imageOf hkeep g)
    rcases truncateLog_spec htrunc with ⟨-, file, rfl, hb | ⟨m, hb⟩⟩ | ⟨file, hb, rfl⟩
    · -- nothing was truncated: the old log is still there
      rw [← himg, hb, hfile]
      exact h.recovers hc hs ht db'.bytes
    · rw [hb]
      exact hfresh m
    · have hall := hfresh (walHeader r).length
      rw [take_length] at hall
      rw [hb]
      exact hall

end

end Tdb
