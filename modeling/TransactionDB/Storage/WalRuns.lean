import TransactionDB.Storage.WalCheckpoint
import TransactionDB.Storage.WalCrash

/-!
# TransactionDB — histories of a log

`LogRun` builds the logs that clients can reach: created, appended to, cut by a crash and
reopened, checkpointed. The invariant `LogInv` is kept by each step, so every reachable log
holds exactly the transactions that its crashes left whole.

A crash inside a checkpoint is a prefix of the checkpoint's effects on the two files. The
log stays authoritative until all its pages are in the main file.
-/

namespace Tdb

open Layout List

/-- The log `w` was reached with the transactions `txs` in it; `lost` are the complete frames
of transactions torn by crashes since the log was last emptied. -/
inductive LogRun (c : Codec) (pageSize : Nat) :
    Wal → List (LogTxn pageSize) → List Frame → Prop where
  /-- A new log, over a file too short to hold a header. -/
  | create (bytes : Bytes) (w : Wal) (hshort : bytes.length < 32)
      (hopen : walOpen c ⟨bytes, []⟩ pageSize = (.ok, w)) : LogRun c pageSize w [] []
  /-- A transaction appended. -/
  | append (w w' : Wal) (txs : List (LogTxn pageSize)) (lost : List Frame)
      (t : LogTxn pageSize) (hrun : LogRun c pageSize w txs lost)
      (happ : appendPages c w t.dbSize t.pages = (.ok, w')) :
      LogRun c pageSize w' (txs ++ [t]) lost
  /-- A crash that leaves the first `n` bytes of the file, and the reopening after it. -/
  | crash (w w' : Wal) (txs : List (LogTxn pageSize)) (lost : List Frame) (n : Nat)
      (hrun : LogRun c pageSize w txs lost)
      (hcrc : w.version = .v2 →
        CollisionFree c w.cfg lost ((w.file.bytes.take n).drop w.endOff) (appendSeed w))
      (hopen : walOpen c ⟨w.file.bytes.take n, []⟩ pageSize = (.ok, w')) :
      LogRun c pageSize w' (retained c w.cfg (n - 32) txs)
        (lost ++ tornFrames c w.cfg (n - 32) txs)
  /-- A completed checkpoint. -/
  | checkpoint (w w' : Wal) (txs : List (LogTxn pageSize)) (lost : List Frame) (db db' : File)
      (hrun : LogRun c pageSize w txs lost) (hckpt : walCheckpoint c w db = (.ok, w', db')) :
      LogRun c pageSize w' [] []

section Steps

variable {c : Codec} {pageSize : Nat} {w w' : Wal} {txs : List (LogTxn pageSize)}
  {lost : List Frame} {tail : Bytes}

theorem LogInv.append (h : LogInv c pageSize w txs lost tail) (t : LogTxn pageSize)
    (happ : appendPages c w t.dbSize t.pages = (.ok, w')) :
    LogInv c pageSize w' (txs ++ [t]) lost (tail.drop (framesSize c w.cfg t.frames)) := by
  have hpages : ∀ p ∈ t.pages, p.2.length = w.pageSize := by
    rw [h.size]
    exact t.page_size
  obtain ⟨hrep, hcfg, -⟩ := h.rep.appendPages hpages happ
  have hver : w'.version = w.version := Wal.version_of_cfg hcfg
  refine ⟨?_, (Wal.pageSize_of_cfg hcfg).trans h.size, fun hv => ?_, h.lost⟩
  · rw [txnFrames_append, txnFrames_cons, txnFrames_nil, append_nil]
    exact hrep
  · rw [hver] at hv
    rw [hcfg]
    refine (h.sound hv).drop (fun _ => framesSize_v1_dvd hv (fun f hf => ?_))
    exact hpages _ (mem_commitFrames hf)

theorem LogInv.appendTxns {more : List (LogTxn pageSize)} :
    ∀ {w w' : Wal} {txs : List (LogTxn pageSize)} {tail : Bytes},
      LogInv c pageSize w txs lost tail → appendTxns c w more = (.ok, w') →
      ∃ tail', LogInv c pageSize w' (txs ++ more) lost tail' := by
  induction more with
  | nil =>
    intro w w' txs tail h happ
    cases happ
    exact ⟨tail, by rwa [append_nil]⟩
  | cons t ts ih =>
    intro w w' txs tail h happ
    simp only [Tdb.appendTxns] at happ
    split at happ
    · rename_i w1 hone
      obtain ⟨tail', h'⟩ := ih (h.append t hone) happ
      exact ⟨tail', by rwa [append_assoc, singleton_append] at h'⟩
    · rename_i rc w1 hne hone
      cases happ
      exact absurd rfl hne

theorem LogInv.checkpoint (hc : c.Inverts) (h : LogInv c pageSize w txs lost tail) {db db' : File}
    (hckpt : walCheckpoint c w db = (.ok, w', db')) : LogInv c pageSize w' [] [] [] := by
  obtain ⟨-, ⟨hne, -⟩ | ⟨-, htrunc⟩⟩ := h.rep.checkpoint_spec hc hckpt
  · exact absurd rfl hne
  have hps : (walReset w).pageSize < 2 ^ 32 := by
    rw [walReset_pageSize]
    exact h.rep.size_lt
  obtain ⟨hrep, hcfg, -⟩ :=
    truncateLog_rep (c := c) hps (walReset_nframe w) (walReset_map w) htrunc
  refine ⟨hrep, ?_, fun _ => tailSound_nil _ _, by simp⟩
  rw [Wal.pageSize_of_cfg hcfg, walReset_pageSize, h.size]

/-- **Every reachable log** keeps the invariant: by induction on its history. -/
theorem LogRun.inv (hc : c.Inverts) (hps : pageSize < 2 ^ 32) (hrun : LogRun c pageSize w txs lost) :
    ∃ tail, LogInv c pageSize w txs lost tail := by
  induction hrun with
  | create bytes w hshort hopen =>
    obtain ⟨w1, hopen1, -, hsize, -, -, hrep⟩ := walOpen_fresh (c := c) hps
      (show (⟨bytes, []⟩ : File).fail = [] from rfl) hshort
    cases hopen.symm.trans hopen1
    exact ⟨[], hrep, hsize, fun _ => tailSound_nil _ _, by simp⟩
  | append w w' txs lost t _ happ ih =>
    obtain ⟨tail, h⟩ := ih
    exact ⟨_, h.append t happ⟩
  | crash w w' txs lost n _ hcrc hopen ih =>
    obtain ⟨tail, h⟩ := ih
    obtain ⟨w1, tail1, hopen1, -, h1⟩ := h.crash hc n hcrc
    cases hopen.symm.trans hopen1
    exact ⟨tail1, h1⟩
  | checkpoint w w' txs lost db db' _ hckpt ih =>
    obtain ⟨tail, h⟩ := ih
    exact ⟨[], h.checkpoint hc hckpt⟩

/-- Reopening a log whose file is intact. -/
theorem LogInv.reopen (hc : c.Inverts) (h : LogInv c pageSize w txs lost tail)
    (hcrc : w.version = .v2 →
      CollisionFree c w.cfg lost (w.file.bytes.drop w.endOff) (appendSeed w)) :
    ∃ w1 tail1, walOpen c ⟨w.file.bytes, []⟩ pageSize = (.ok, w1) ∧
      w1.dbSize = txnsDbSize txs ∧ w1.pageSize = pageSize ∧
      LogRep c w1 (txnFrames txs) tail1 := by
  have htake : w.file.bytes.take w.file.bytes.length = w.file.bytes := take_length
  have hall : retained c w.cfg (w.file.bytes.length - 32) txs = txs := by
    apply retained_of_le
    rw [h.rep.bytes, length_append, length_append, length_walHeader, length_encFrames]
    omega
  obtain ⟨w1, tail1, hopen, hdb, h1⟩ := h.crash hc w.file.bytes.length (by rw [htake]; exact hcrc)
  rw [htake] at hopen
  rw [hall] at hdb h1
  exact ⟨w1, tail1, hopen, hdb, h1.size, h1.rep⟩

/-- **Recovery is prefix-atomic.** Whatever a log went through, if a crash leaves the first
`n` bytes of its file, reopening it gives exactly the transactions that are whole in them;
and transactions appended after that follow them when the log is reopened once more. -/
theorem walOpen_prefix_atomic (hc : c.Inverts) (hps : pageSize < 2 ^ 32)
    (hrun : LogRun c pageSize w txs lost) (n : Nat)
    (hcrc : w.version = .v2 →
      CollisionFree c w.cfg lost ((w.file.bytes.take n).drop w.endOff) (appendSeed w)) :
    ∃ w1, walOpen c ⟨w.file.bytes.take n, []⟩ pageSize = (.ok, w1) ∧
      (∀ pgno, walReadPage c w1 pgno
        = (.ok, lastImage (txnFrames (retained c w.cfg (n - 32) txs)) pgno)) ∧
      w1.dbSize = txnsDbSize (retained c w.cfg (n - 32) txs) ∧
      ∀ (more : List (LogTxn pageSize)) (w2 : Wal), appendTxns c w1 more = (.ok, w2) →
        (w2.version = .v2 → CollisionFree c w2.cfg (lost ++ tornFrames c w.cfg (n - 32) txs)
          (w2.file.bytes.drop w2.endOff) (appendSeed w2)) →
        ∃ w3, walOpen c ⟨w2.file.bytes, []⟩ pageSize = (.ok, w3) ∧
          (∀ pgno, walReadPage c w3 pgno
            = (.ok, lastImage (txnFrames (retained c w.cfg (n - 32) txs ++ more)) pgno)) ∧
          w3.dbSize = txnsDbSize (retained c w.cfg (n - 32) txs ++ more) := by
  obtain ⟨tail, h⟩ := hrun.inv hc hps
  obtain ⟨w1, tail1, hopen1, hdb1, h1⟩ := h.crash hc n hcrc
  refine ⟨w1, hopen1, h1.rep.readPage hc, hdb1, ?_⟩
  intro more w2 happ hcrc2
  obtain ⟨tail2, h2⟩ := h1.appendTxns happ
  obtain ⟨w3, tail3, hopen3, hdb3, -, hrep3⟩ := h2.reopen hc hcrc2
  exact ⟨w3, hopen3, hrep3.readPage hc, hdb3⟩

/-- A version 2 log with one transaction of two pages. -/
def twoPageTxn : LogTxn 4 :=
  ⟨[(1, [1, 2, 3, 4]), (2, [5, 6, 7, 8])], 2, by decide, by decide, by decide⟩

def twoPageLog : Wal :=
  (appendPages Codec.stored (walOpen Codec.stored ⟨[], []⟩ 4).2 2 twoPageTxn.pages).2

theorem twoPageLog_run : LogRun Codec.stored 4 twoPageLog [twoPageTxn] [] :=
  .append _ _ [] [] twoPageTxn
    (.create [] _ (by decide) (Prod.ext (by decide +kernel) rfl)) (Prod.ext (by decide +kernel) rfl)

/-- Cut inside its second frame, that log reopens as an empty one. -/
theorem walOpen_prefix_atomic_torn :
    ∃ w1, walOpen Codec.stored ⟨twoPageLog.file.bytes.take 75, []⟩ 4 = (.ok, w1) ∧
      (∀ pgno, walReadPage Codec.stored w1 pgno = (.ok, none)) ∧ w1.dbSize = 0 := by
  have hbehind : (twoPageLog.file.bytes.take 75).drop twoPageLog.endOff = [] := by decide +kernel
  have hnone : retained Codec.stored twoPageLog.cfg (75 - 32) [twoPageTxn] = [] := by
    rw [retained, if_neg (by decide +kernel)]
  obtain ⟨w1, hopen, hread, hdb, -⟩ := walOpen_prefix_atomic Codec.stored_inverts (by decide)
    twoPageLog_run 75 (fun _ => by rw [hbehind]; exact collisionFree_nil _ _)
  rw [hnone] at hread hdb
  exact ⟨w1, hopen, hread, hdb⟩

/-! ## Crashes inside a checkpoint -/

/-- **A checkpoint is crash-atomic for page contents.** If the machine stops after the first
`n` effects of a checkpoint, then over the reopened log every page has the image it had
before the checkpoint. -/
theorem checkpoint_crash_atomic (hc : c.Inverts) (hps : pageSize < 2 ^ 32)
    (hrun : LogRun c pageSize w txs lost) (db : File) (n : Nat)
    (hcrc : w.version = .v2 →
      CollisionFree c w.cfg lost (w.file.bytes.drop w.endOff) (appendSeed w)) :
    ∃ w1, walOpen c ⟨(crashedCheckpoint c w db n).wal, []⟩ pageSize = (.ok, w1) ∧
      ∀ pgno, (readPageImage c w db pgno).1 = .ok ∧
        readPageImage c w1 ⟨(crashedCheckpoint c w db n).db, []⟩ pgno
          = readPageImage c w db pgno := by
  obtain ⟨tail, h⟩ := hrun.inv hc hps
  have hsame := fun pgno => h.rep.readImage hc db pgno
  set ps := pageWrites c w (List.range w.map.length) with hpw
  -- all pages copied: the main file alone has the images
  have hdone : ∀ pgno, dbPage (writePages w.pageSize db.bytes ps) w.pageSize pgno
      = imageOf (txnFrames txs) db.bytes w.pageSize pgno := by
    intro pgno
    refine Copied.imageOf (h.rep.copied_writePages hc db.bytes) (fun g hg => ?_) pgno
    have := h.rep.imageOf_writePages hc (fun p hp => hp) db.bytes g
    rwa [imageOf, imageOf, hg] at this
  rcases crashedCheckpoint_cases c w db n with hd | hd | hd <;> rw [hd]
  · -- the log is still whole
    obtain ⟨w1, tail1, hopen, -, hsize, hrep⟩ := h.reopen hc hcrc
    refine ⟨w1, hopen, fun pgno => ⟨by rw [hsame], ?_⟩⟩
    rw [hsame, hrep.readImage hc, hsize.trans h.size.symm,
      h.rep.imageOf_writePages hc (fun p hp => mem_of_mem_take hp)]
  · -- the log file is empty
    obtain ⟨w1, hopen, -, hsize, -, -, hrep⟩ := walOpen_fresh (c := c) hps
      (show (⟨[], []⟩ : File).fail = [] from rfl) (by simp)
    refine ⟨w1, hopen, fun pgno => ⟨by rw [hsame], ?_⟩⟩
    rw [hsame, hrep.readImage hc, hsize.trans h.size.symm]
    exact congrArg (Prod.mk Status.ok) (hdone pgno)
  · -- the log file holds the new header only
    have hps' : (walReset w).pageSize < 2 ^ 32 := by
      rw [walReset_pageSize]
      exact h.rep.size_lt
    have hbytes : (⟨walHeader (walReset w), []⟩ : File).bytes = walHeader (walReset w) ++
        (encFrames c (walReset w).cfg (walReset w).salt1 [] ++ []) := by
      rw [encFrames, append_nil, append_nil]
    obtain ⟨w1, hopen, -, hcfg, -, -, hrep⟩ := walOpen_rep hc hps' hbytes (by simp) (by simp)
      ((tailSound_nil _ _).inert _) rfl
    rw [walReset_pageSize, h.size] at hopen
    refine ⟨w1, hopen, fun pgno => ⟨by rw [hsame], ?_⟩⟩
    rw [hsame, hrep.readImage hc, Wal.pageSize_of_cfg hcfg, walReset_pageSize]
    exact congrArg (Prod.mk Status.ok) (hdone pgno)

/-- The checkpoint of a log with two pages, stopped after the first of them is copied. -/
theorem checkpoint_crash_atomic_twoPage :
    ∃ w1, walOpen Codec.stored ⟨(crashedCheckpoint Codec.stored twoPageLog ⟨[], []⟩ 1).wal, []⟩ 4
        = (.ok, w1) ∧
      ∀ pgno, (readPageImage Codec.stored twoPageLog ⟨[], []⟩ pgno).1 = .ok ∧
        readPageImage Codec.stored w1
          ⟨(crashedCheckpoint Codec.stored twoPageLog ⟨[], []⟩ 1).db, []⟩ pgno
          = readPageImage Codec.stored twoPageLog ⟨[], []⟩ pgno := by
  have hbehind : twoPageLog.file.bytes.drop twoPageLog.endOff = [] := by decide +kernel
  exact checkpoint_crash_atomic Codec.stored_inverts (by decide) twoPageLog_run ⟨[], []⟩ 1
    (fun _ => by rw [hbehind]; exact collisionFree_nil _ _)

end Steps

end Tdb
