import TransactionDB.Storage.WalRecovery

/-!
# TransactionDB — transactions in the log

The log as its clients use it: a transaction is a non-empty list of page images, appended
frame by frame, of which only the last frame carries a database size.

* `commitFrames` / `appendPages`: the frames of one commit, and the loop that appends them.
* `wholeFrames` / `retained`: what is complete in the first bytes of the log.
* `committed_wholeFrames`: the committed part of a cut log is its retained transactions.
-/

namespace Tdb

open Layout List

variable {fs : List Frame} {pages : List (UInt32 × Bytes)}

/-! ## The frames of a commit -/

/-- The frames of one commit: the last one carries the database size. -/
def commitFrames (dbSize : UInt32) : List (UInt32 × Bytes) → List Frame
  | [] => []
  | (pgno, page) :: rest =>
    ⟨pgno, if rest.isEmpty then dbSize else 0, page⟩ :: commitFrames dbSize rest

/-- The appending loop of `tdb_pager_commit`. -/
def appendPages (c : Codec) (w : Wal) (dbSize : UInt32) : List (UInt32 × Bytes) → Status × Wal
  | [] => (.ok, w)
  | (pgno, page) :: rest =>
    match walAppend c w pgno page rest.isEmpty dbSize with
    | (.ok, w) => appendPages c w dbSize rest
    | (rc, w) => (rc, w)

/-- Bytes of a frame in the log file. -/
def frameSize (c : Codec) (k : LogCfg) (f : Frame) : Nat := 24 + (encPayload c k f.page).length

def framesSize (c : Codec) (k : LogCfg) (fs : List Frame) : Nat := (fs.map (frameSize c k)).sum

theorem length_encFrames (c : Codec) (k : LogCfg) (seed : UInt32) (fs : List Frame) :
    (encFrames c k seed fs).length = framesSize c k fs := by
  induction fs generalizing seed with
  | nil => rfl
  | cons f fs ih => simp [encFrames, framesSize, length_encFrame, frameSize, ih]

theorem framesSize_append (c : Codec) (k : LogCfg) (fs gs : List Frame) :
    framesSize c k (fs ++ gs) = framesSize c k fs + framesSize c k gs := by
  simp [framesSize]

theorem frameSize_v1 {c : Codec} {k : LogCfg} (hv : k.version = .v1) {f : Frame}
    (hp : f.page.length = k.pageSize) : frameSize c k f = 24 + k.pageSize := by
  rw [frameSize, encPayload_v1 c hv, hp]

theorem framesSize_v1_dvd {c : Codec} {k : LogCfg} (hv : k.version = .v1)
    (hp : ∀ f ∈ fs, f.page.length = k.pageSize) : (24 + k.pageSize) ∣ framesSize c k fs := by
  rw [← length_encFrames c k 0 fs, length_encFrames_v1 c hv 0 fs hp]
  exact Nat.dvd_mul_left _ _

theorem mem_commitFrames {dbSize : UInt32} {f : Frame} (h : f ∈ commitFrames dbSize pages) :
    (f.pgno, f.page) ∈ pages := by
  induction pages with
  | nil => simp [commitFrames] at h
  | cons p rest ih =>
    rcases mem_cons.mp h with rfl | h
    · exact mem_cons_self
    · exact mem_cons_of_mem _ (ih h)

theorem commitFrames_pages (dbSize : UInt32) (pages : List (UInt32 × Bytes)) :
    (commitFrames dbSize pages).map (fun f => (f.pgno, f.page)) = pages := by
  induction pages with
  | nil => rfl
  | cons p rest ih => simp [commitFrames, ih]

theorem length_commitFrames (dbSize : UInt32) (pages : List (UInt32 × Bytes)) :
    (commitFrames dbSize pages).length = pages.length := by
  have h := congrArg List.length (commitFrames_pages dbSize pages)
  rwa [length_map] at h

/-- What appending does to the log: `LogRep.append`, iterated. -/
theorem LogRep.appendPages {c : Codec} {dbSize : UInt32} :
    ∀ {w w' : Wal} {fs : List Frame} {tail : Bytes}, LogRep c w fs tail →
      (∀ p ∈ pages, p.2.length = w.pageSize) →
      appendPages c w dbSize pages = (.ok, w') →
      LogRep c w' (fs ++ commitFrames dbSize pages)
          (tail.drop (framesSize c w.cfg (commitFrames dbSize pages))) ∧
        w'.cfg = w.cfg ∧ w'.ckptSeq = w.ckptSeq := by
  induction pages with
  | nil =>
    intro w w' fs tail h _ hrun
    cases hrun
    simpa [commitFrames, framesSize] using h
  | cons p rest ih =>
    obtain ⟨pgno, page⟩ := p
    intro w w' fs tail h hp hrun
    simp only [Tdb.appendPages] at hrun
    split at hrun
    · rename_i w1 hone
      have h1 := h.append (hp _ mem_cons_self) hone
      obtain ⟨hcfg1, hseq1⟩ := walAppend_cfg hone
      have hps : w1.pageSize = w.pageSize := Wal.pageSize_of_cfg hcfg1
      obtain ⟨h2, hcfg2, hseq2⟩ := ih h1
        (fun q hq => by rw [hps]; exact hp q (mem_cons_of_mem _ hq)) hrun
      rw [append_assoc, singleton_append, drop_drop, hcfg1] at h2
      exact ⟨h2, hcfg2.trans hcfg1, hseq2.trans hseq1⟩
    · rename_i rc w1 hne hone
      cases hrun
      exact absurd rfl hne

/-- A failing write stops the loop: the log holds the first frames, without their commit. -/
theorem LogRep.appendPages_error {c : Codec} {dbSize : UInt32} :
    ∀ {w w' : Wal} {fs : List Frame} {tail : Bytes}, LogRep c w fs tail →
      (∀ p ∈ pages, p.2.length = w.pageSize) →
      Tdb.appendPages c w dbSize pages = (.ioerr, w') →
      ∃ k tail', LogRep c w' (fs ++ (commitFrames dbSize pages).take k) tail' ∧
        w'.cfg = w.cfg := by
  induction pages with
  | nil =>
    intro w w' fs tail _ _ hrun
    cases hrun
  | cons p rest ih =>
    obtain ⟨pgno, page⟩ := p
    intro w w' fs tail h hp hrun
    simp only [Tdb.appendPages] at hrun
    split at hrun
    · rename_i w1 hone
      have h1 := h.append (hp _ mem_cons_self) hone
      obtain ⟨hcfg1, -⟩ := walAppend_cfg hone
      have hps : w1.pageSize = w.pageSize := Wal.pageSize_of_cfg hcfg1
      obtain ⟨k, tail', h2, hcfg2⟩ := ih h1
        (fun q hq => by rw [hps]; exact hp q (mem_cons_of_mem _ hq)) hrun
      rw [append_assoc] at h2
      exact ⟨k + 1, tail', h2, hcfg2.trans hcfg1⟩
    · rename_i rc w1 hne hone
      cases hrun
      obtain ⟨tail', h1, -⟩ := h.append_error hone
      exact ⟨0, tail', by simpa using h1, (walAppend_cfg hone).1⟩

/-- Without disk errors pages below `2 ^ 31` can be appended. -/
theorem appendPages_succeeds {c : Codec} (dbSize : UInt32) :
    ∀ {w : Wal}, w.file.fail = [] → (∀ p ∈ pages, p.1.toNat < 2 ^ 31) →
      ∃ w', appendPages c w dbSize pages = (.ok, w') ∧ w'.file.fail = [] := by
  induction pages with
  | nil => exact fun hfail _ => ⟨_, rfl, hfail⟩
  | cons p rest ih =>
    obtain ⟨pgno, page⟩ := p
    intro w hfail hpg
    obtain ⟨w1, hone, hfail1⟩ := walAppend_succeeds (c := c) hfail
      (hpg _ mem_cons_self) page rest.isEmpty dbSize
    obtain ⟨w2, hrest, hfail2⟩ := ih hfail1 (forall_mem_cons.mp hpg).2
    refine ⟨w2, ?_, hfail2⟩
    simp only [appendPages, hone, hrest]

theorem appendPages_fail {c : Codec} (dbSize : UInt32) (pages : List (UInt32 × Bytes)) :
    ∀ {w : Wal}, w.file.fail = [] → (appendPages c w dbSize pages).2.file.fail = [] := by
  induction pages with
  | nil => exact fun hfail => hfail
  | cons p rest ih =>
    intro w hfail
    have hone := walAppend_fail (c := c) hfail p.1 p.2 rest.isEmpty dbSize
    obtain ⟨pgno, page⟩ := p
    simp only [appendPages]
    split
    · rename_i w1 heq
      rw [heq] at hone
      exact ih hone
    · rename_i rc w1 hne heq
      rw [heq] at hone
      exact hone

/-! ## What the first bytes of a log hold -/

/-- The frames that lie wholly within the first `n` bytes behind the log header. -/
def wholeFrames (c : Codec) (k : LogCfg) : Nat → List Frame → List Frame
  | _, [] => []
  | n, f :: fs =>
    if frameSize c k f ≤ n then f :: wholeFrames c k (n - frameSize c k f) fs else []

theorem wholeFrames_sublist (c : Codec) (k : LogCfg) (n : Nat) (fs : List Frame) :
    (wholeFrames c k n fs).Sublist fs := by
  induction fs generalizing n with
  | nil => exact List.Sublist.refl _
  | cons f fs ih =>
    unfold wholeFrames
    split
    · exact (ih _).cons_cons f
    · exact nil_sublist _

theorem wholeFrames_append_of_le {c : Codec} {k : LogCfg} {n : Nat} (gs : List Frame)
    (h : framesSize c k fs ≤ n) :
    wholeFrames c k n (fs ++ gs) = fs ++ wholeFrames c k (n - framesSize c k fs) gs := by
  induction fs generalizing n with
  | nil => simp [framesSize]
  | cons f fs ih =>
    have hsum : framesSize c k (f :: fs) = frameSize c k f + framesSize c k fs := by
      simp [framesSize]
    rw [cons_append, wholeFrames, if_pos (by omega), ih (by omega), hsum, cons_append,
      Nat.sub_sub]

/-- Frames that do not all fit: only a proper part of them is whole. -/
theorem wholeFrames_append_of_lt {c : Codec} {k : LogCfg} {n : Nat} (gs : List Frame)
    (h : n < framesSize c k fs) :
    ∃ i, i < fs.length ∧ wholeFrames c k n (fs ++ gs) = fs.take i := by
  induction fs generalizing n with
  | nil => simp [framesSize] at h
  | cons f fs ih =>
    have hsum : framesSize c k (f :: fs) = frameSize c k f + framesSize c k fs := by
      simp [framesSize]
    rw [cons_append, wholeFrames]
    by_cases hf : frameSize c k f ≤ n
    · obtain ⟨i, hi, heq⟩ := ih (n := n - frameSize c k f) (by omega)
      exact ⟨i + 1, by simpa using hi, by rw [if_pos hf, heq, take_succ_cons]⟩
    · exact ⟨0, by simp, by rw [if_neg hf, take_zero]⟩

/-- A cut log: whole frames, then a rest that starts no frame, or the uncut bytes behind
all frames. -/
theorem take_encFrames {c : Codec} {k : LogCfg} (hps : k.pageSize < 2 ^ 32)
    (hp : ∀ f ∈ fs, f.page.length = k.pageSize) (tail : Bytes) :
    ∀ (n : Nat) (seed : UInt32), ∃ rest,
      (encFrames c k seed fs ++ tail).take n
        = encFrames c k seed (wholeFrames c k n fs) ++ rest ∧
      ((wholeFrames c k n fs = fs ∧ rest = tail.take (n - framesSize c k fs)) ∨
        ((∀ r, frameAt c k rest r = none) ∧
          (k.version = .v1 → rest.length < 24 + k.pageSize))) := by
  induction fs with
  | nil =>
    intro n seed
    exact ⟨tail.take n, by simp [encFrames, wholeFrames], Or.inl ⟨rfl, by simp [framesSize]⟩⟩
  | cons f fs ih =>
    intro n seed
    have hpf : f.page.length = k.pageSize := hp f mem_cons_self
    have hlen : (encFrame c k seed f).length = frameSize c k f := length_encFrame c k seed f
    have hsum : framesSize c k (f :: fs) = frameSize c k f + framesSize c k fs := by
      simp [framesSize]
    by_cases hf : frameSize c k f ≤ n
    · -- the first frame is whole: go on behind it
      obtain ⟨rest, hrest, hcases⟩ := ih (forall_mem_cons.mp hp).2
        (n - frameSize c k f) (frameCrc k seed f)
      refine ⟨rest, ?_, ?_⟩
      · rw [wholeFrames, if_pos hf, encFrames, encFrames, append_assoc, append_assoc,
          take_append, hlen, hrest, take_of_length_le (by omega)]
      · rcases hcases with ⟨hall, htail⟩ | hcut
        · exact Or.inl ⟨by rw [wholeFrames, if_pos hf, hall], by rw [htail, hsum, Nat.sub_sub]⟩
        · exact Or.inr hcut
    · -- the cut is inside the first frame
      have htake : (encFrames c k seed (f :: fs) ++ tail).take n
          = (encFrame c k seed f).take n := by
        rw [encFrames, append_assoc, take_append_of_le_length (by omega)]
      refine ⟨(encFrame c k seed f).take n, ?_, Or.inr ⟨fun r => ?_, fun hv => ?_⟩⟩
      · rw [htake, wholeFrames, if_neg hf, encFrames, nil_append]
      · exact frameAt_truncated hps hpf seed r (by omega)
      · have := frameSize_v1 (c := c) hv hpf
        simp
        omega

/-! ## Transactions -/

/-- A transaction as the log's clients append it. -/
structure LogTxn (pageSize : Nat) where
  pages : List (UInt32 × Bytes)
  dbSize : UInt32
  pages_ne : pages ≠ []
  page_size : ∀ p ∈ pages, p.2.length = pageSize
  dbSize_ne : dbSize ≠ 0

variable {c : Codec} {k : LogCfg} {pageSize : Nat}

def LogTxn.frames (t : LogTxn pageSize) : List Frame := commitFrames t.dbSize t.pages

def txnFrames (txs : List (LogTxn pageSize)) : List Frame := txs.flatMap LogTxn.frames

/-- The database size a list of transactions leaves: that of the last one, zero without any. -/
def txnsDbSize (txs : List (LogTxn pageSize)) : UInt32 :=
  match txs.getLast? with
  | some t => t.dbSize
  | none => 0

def appendTxns (c : Codec) (w : Wal) : List (LogTxn pageSize) → Status × Wal
  | [] => (.ok, w)
  | t :: ts =>
    match appendPages c w t.dbSize t.pages with
    | (.ok, w) => appendTxns c w ts
    | (rc, w) => (rc, w)

/-- The transactions whose frames lie wholly within the first `n` bytes behind the header. -/
def retained (c : Codec) (k : LogCfg) : Nat → List (LogTxn pageSize) → List (LogTxn pageSize)
  | _, [] => []
  | n, t :: ts =>
    if framesSize c k t.frames ≤ n then t :: retained c k (n - framesSize c k t.frames) ts
    else []

@[simp] theorem txnFrames_nil : txnFrames ([] : List (LogTxn pageSize)) = [] := rfl

@[simp] theorem txnFrames_cons (t : LogTxn pageSize) (ts : List (LogTxn pageSize)) :
    txnFrames (t :: ts) = t.frames ++ txnFrames ts := by
  simp [txnFrames]

theorem txnFrames_append (xs ys : List (LogTxn pageSize)) :
    txnFrames (xs ++ ys) = txnFrames xs ++ txnFrames ys := by
  simp [txnFrames]

/-- Only the last frame of a commit has a database size. -/
theorem commitFrames_split (dbSize : UInt32) (h : pages ≠ []) :
    ∃ init last, commitFrames dbSize pages = init ++ [last] ∧ last.dbSize = dbSize ∧
      ∀ f ∈ init, f.dbSize = 0 := by
  induction pages with
  | nil => exact absurd rfl h
  | cons p rest ih =>
    cases rest with
    | nil => exact ⟨[], ⟨p.1, dbSize, p.2⟩, rfl, rfl, by simp⟩
    | cons q rest =>
      obtain ⟨init, last, heq, hlast, hinit⟩ := ih (by simp)
      refine ⟨⟨p.1, 0, p.2⟩ :: init, last, by rw [commitFrames, heq]; rfl, hlast, ?_⟩
      intro f hf
      rcases mem_cons.mp hf with rfl | hf
      · rfl
      · exact hinit f hf

theorem committedFrames_of_loose (h : ∀ f ∈ fs, f.dbSize = 0) :
    committedFrames fs = [] := by
  rw [committedFrames, rdropWhile_eq_nil_iff]
  intro f hf
  simpa using h f hf

/-- Frames behind a commit do not reach back over it. -/
theorem committedFrames_append_commit {last : Frame} (h : last.dbSize ≠ 0) (gs : List Frame) :
    committedFrames (fs ++ [last] ++ gs) = fs ++ [last] ++ committedFrames gs := by
  induction gs using List.reverseRecOn with
  | nil =>
    rw [append_nil, committedFrames_append, if_pos h]
    simp [committedFrames]
  | append_singleton gs g ih =>
    rw [← append_assoc, committedFrames_append, committedFrames_append, ih]
    split <;> simp

theorem lastDbSize_committed (fs : List Frame) : lastDbSize (committedFrames fs) = lastDbSize fs := by
  induction fs using List.reverseRecOn with
  | nil => rfl
  | append_singleton fs f ih =>
    rw [committedFrames_append, lastDbSize_append]
    split
    · rename_i h
      rw [lastDbSize_append, if_pos h]
    · exact ih

theorem LogTxn.frames_split (t : LogTxn pageSize) :
    ∃ init last, t.frames = init ++ [last] ∧ last.dbSize = t.dbSize ∧ last.dbSize ≠ 0 ∧
      ∀ f ∈ init, f.dbSize = 0 := by
  obtain ⟨init, last, heq, hlast, hinit⟩ := commitFrames_split t.dbSize t.pages_ne
  exact ⟨init, last, heq, hlast, hlast ▸ t.dbSize_ne, hinit⟩

/-- **The committed part of a cut log is its retained transactions.** -/
theorem committed_wholeFrames (txs : List (LogTxn pageSize)) : ∀ n : Nat,
    committedFrames (wholeFrames c k n (txnFrames txs)) = txnFrames (retained c k n txs) := by
  induction txs with
  | nil => intro n; rfl
  | cons t ts ih =>
    intro n
    obtain ⟨init, last, heq, -, hne, hinit⟩ := t.frames_split
    rw [txnFrames_cons, retained]
    by_cases hn : framesSize c k t.frames ≤ n
    · rw [if_pos hn, wholeFrames_append_of_le _ hn, txnFrames_cons, ← ih, heq,
        committedFrames_append_commit hne]
    · -- the commit frame of `t` is cut off
      obtain ⟨i, hi, hwhole⟩ := wholeFrames_append_of_lt (txnFrames ts) (Nat.lt_of_not_le hn)
      rw [if_neg hn, hwhole]
      apply committedFrames_of_loose
      rw [heq, take_append_of_le_length (by rw [heq] at hi; simp at hi; omega)]
      intro f hf
      exact hinit f (mem_of_mem_take hf)

theorem retained_of_le {txs : List (LogTxn pageSize)} {n : Nat}
    (h : framesSize c k (txnFrames txs) ≤ n) : retained c k n txs = txs := by
  induction txs generalizing n with
  | nil => rfl
  | cons t ts ih =>
    rw [txnFrames_cons, framesSize_append] at h
    rw [retained, if_pos (by omega), ih (by omega)]

theorem lastDbSize_txnFrames (txs : List (LogTxn pageSize)) :
    lastDbSize (txnFrames txs) = txnsDbSize txs := by
  induction txs using List.reverseRecOn with
  | nil => rfl
  | append_singleton ts t _ =>
    obtain ⟨init, last, heq, hlast, hne, -⟩ := t.frames_split
    rw [txnFrames_append, txnFrames_cons, txnFrames_nil, append_nil, heq,
      ← append_assoc, lastDbSize_append, if_pos hne, hlast]
    simp [txnsDbSize]

end Tdb
