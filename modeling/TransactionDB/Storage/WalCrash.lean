import TransactionDB.Storage.WalTxn

/-!
# TransactionDB — crashes of the log

A crash leaves some first bytes of the log file; reopening recovers the transactions that
are whole in them, and new frames then overwrite the torn ones. What lies behind the end of
the log is stale, and recovery reads on into it.

* Version 1 frames have one size, so a stale frame stands where it was written. It belongs
  to a torn transaction and commits nothing (`TailSound`).
* Version 2 frames may start anywhere, and only the checksums keep the loop from taking
  stale bytes for a frame. `CollisionFree` is that assumption, for the comparisons the
  loop makes.
* `LogRun`: histories of appended transactions, crashes with reopening, and checkpoints.
  Every log they reach holds exactly the transactions that were not lost.
-/

namespace Tdb

open Layout List

variable {c : Codec} {k : LogCfg} {pageSize : Nat}

/-! ## Stale bytes -/

/-- What recovery reads in a frame. -/
def FrameRead.frame (fr : FrameRead) : Frame := ⟨fr.pgno, fr.dbSize, fr.page⟩

/-- The recovery loop, started at `bs` with rolling checksum `r`, accepts `fr`. -/
inductive Accepts (c : Codec) (k : LogCfg) : Bytes → UInt32 → FrameRead → Prop where
  | here (bs : Bytes) (r : UInt32) (fr : FrameRead) (h : frameAt c k bs r = some fr) :
      Accepts c k bs r fr
  | next (bs : Bytes) (r : UInt32) (fr fr' : FrameRead) (h : frameAt c k bs r = some fr)
      (hrest : Accepts c k (bs.drop fr.len) fr.crc1 fr') : Accepts c k bs r fr'

/-- No checksum collision on the frames compared: what the loop accepts in the bytes `bs`
behind the end of a log is one of the `lost` frames, which were appended there before. -/
def CollisionFree (c : Codec) (k : LogCfg) (lost : List Frame) (bs : Bytes) (r : UInt32) : Prop :=
  ∀ fr, Accepts c k bs r fr → fr.frame ∈ lost

theorem collisionFree_nil (lost : List Frame) (r : UInt32) : CollisionFree c k lost [] r := by
  intro fr h
  cases h with
  | here _ _ _ h | next _ _ _ _ h => simp [frameAt] at h

/-- Where everything the loop accepts is no commit, it commits nothing. Induction on the
bytes left. -/
theorem inert_of_accepts {bs : Bytes} {r : UInt32}
    (h : ∀ fr, Accepts c k bs r fr → fr.dbSize = 0) : Inert c k bs r := by
  induction hn : bs.length using Nat.strong_induction_on generalizing bs r with
  | _ n ih =>
    cases hfr : frameAt c k bs r with
    | none => exact .stop _ _ hfr
    | some fr =>
      obtain ⟨h24, hpay, -⟩ := frameAt_some_inv hfr
      obtain ⟨hlen, -⟩ := framePayload_len hpay
      refine .skip _ _ fr hfr (h fr (.here _ _ _ hfr)) ?_
      exact ih (bs.drop fr.len).length (by simp; omega)
        (fun fr' hacc => h fr' (.next _ _ _ _ hfr hacc)) rfl

theorem CollisionFree.inert {lost : List Frame} {bs : Bytes} {r : UInt32}
    (h : CollisionFree c k lost bs r) (hlost : ∀ f ∈ lost, f.dbSize = 0) : Inert c k bs r :=
  inert_of_accepts (fun fr hacc => hlost _ (h fr hacc))

/-- Cutting bytes off behind a frame changes nothing about it. -/
theorem frameAt_take {bs : Bytes} {n : Nat} {r : UInt32} {fr : FrameRead}
    (hv : k.version = .v1) (h : frameAt c k (bs.take n) r = some fr) :
    frameAt c k bs r = some fr := by
  have hle : (bs.take n).length ≤ bs.length := by simp
  have hget : ∀ i, i < (bs.take n).length → bs[i]? = (bs.take n)[i]? := by
    intro i hi
    rw [getElem?_take_of_lt (by simp at hi; omega)]
  have hslice : ∀ off m, off + m ≤ (bs.take n).length →
      slice bs off m = slice (bs.take n) off m := by
    intro off m hm
    apply ext_getElem?
    intro i
    rw [getElem?_slice, getElem?_slice]
    split
    · exact hget _ (by omega)
    · rfl
  obtain ⟨h24, hpay, -⟩ := frameAt_some_inv h
  obtain ⟨-, hlen⟩ := framePayload_len hpay
  obtain ⟨hlen, hfit⟩ := hlen hv
  have hu32 : ∀ off, off + 4 ≤ 24 → getU32 bs off = getU32 (bs.take n) off := by
    intro off hoff
    rw [getU32, getU32, hslice off 4 (by omega)]
  have hpay' : framePayload c k bs = framePayload c k (bs.take n) := by
    unfold framePayload
    rw [hv]
    simp only
    rw [if_neg (by omega), if_neg (by omega), hslice _ _ (by omega)]
  rw [← h]
  unfold frameAt
  rw [if_pos h24, if_pos (by omega), hpay', hu32 0 (by omega), hu32 4 (by omega),
    hu32 8 (by omega), hu32 12 (by omega), hu32 16 (by omega), hu32 20 (by omega),
    hslice 0 16 (by omega)]

theorem TailSound.take {tail : Bytes} (h : TailSound c k tail) (hv : k.version = .v1) (n : Nat) :
    TailSound c k (tail.take n) := by
  intro j r fr hj hfr
  rw [drop_take] at hfr
  exact h j r fr hj (frameAt_take hv hfr)

/-- Bytes in which no frame starts, shorter than a version 1 frame. -/
theorem tailSound_of_none {rest : Bytes} (hv : k.version = .v1)
    (hnone : ∀ r, frameAt c k rest r = none) (hlen : rest.length < 24 + k.pageSize) :
    TailSound c k rest := by
  intro j r fr hj hfr
  rcases Nat.eq_zero_or_pos j with rfl | hpos
  · rw [drop_zero, hnone r] at hfr
    cases hfr
  · have hle := Nat.le_of_dvd hpos (hj hv)
    rw [drop_eq_nil_of_le (by omega)] at hfr
    simp [frameAt] at hfr

/-- Version 1 frames that commit nothing, in front of a sound tail. -/
theorem TailSound.frames {tail : Bytes} (h : TailSound c k tail) (hv : k.version = .v1)
    {fs : List Frame} (hp : ∀ f ∈ fs, f.page.length = k.pageSize)
    (hdb : ∀ f ∈ fs, f.dbSize = 0) (seed : UInt32) :
    TailSound c k (encFrames c k seed fs ++ tail) := by
  induction fs generalizing seed with
  | nil => simpa [encFrames] using h
  | cons f fs ih =>
    have hlen : (encFrame c k seed f).length = 24 + k.pageSize := by
      rw [length_encFrame, encPayload_v1 c hv, hp f mem_cons_self]
    have hrest := ih (forall_mem_cons.mp hp).2
      (forall_mem_cons.mp hdb).2 (frameCrc k seed f)
    intro j r fr hj hfr
    rw [encFrames, append_assoc] at hfr
    rcases Nat.eq_zero_or_pos j with rfl | hpos
    · -- the first frame: its database size is read from its header
      obtain ⟨-, -, hread⟩ := frameAt_some_inv hfr
      rw [drop_zero, encFrame, append_assoc] at hread
      rw [hread, (getU32_encHeader k seed f _).2.1]
      exact hdb f mem_cons_self
    · obtain ⟨m, rfl⟩ := hj hv
      obtain ⟨m, rfl⟩ : ∃ i, m = i + 1 :=
        ⟨m - 1, by have := Nat.pos_of_mul_pos_left hpos; omega⟩
      rw [Nat.mul_succ, Nat.add_comm, ← hlen, ← drop_drop, drop_left, hlen] at hfr
      exact hrest _ r fr (fun _ => Nat.dvd_mul_right _ _) hfr

/-! ## A crash and the recovery after it -/

/-- The frames of the torn transaction that lie wholly within the first `n` bytes behind the
header: complete, but without their commit. -/
def tornFrames (c : Codec) (k : LogCfg) (n : Nat) (txs : List (LogTxn pageSize)) : List Frame :=
  looseFrames (wholeFrames c k n (txnFrames txs))

/-- The log `w` holds the transactions `txs`, with `tail` behind them; `lost` are frames torn
off in earlier crashes. -/
structure LogInv (c : Codec) (pageSize : Nat) (w : Wal) (txs : List (LogTxn pageSize))
    (lost : List Frame) (tail : Bytes) : Prop where
  rep : LogRep c w (txnFrames txs) tail
  size : w.pageSize = pageSize
  sound : w.version = .v1 → TailSound c w.cfg tail
  lost : ∀ f ∈ lost, f.dbSize = 0

theorem retained_zero (txs : List (LogTxn pageSize)) : retained c k 0 txs = [] := by
  cases txs with
  | nil => rfl
  | cons t ts =>
    obtain ⟨init, last, heq, -⟩ := t.frames_split
    rw [retained, if_neg]
    rw [heq, framesSize_append]
    simp [framesSize, frameSize]

section Steps

variable {w : Wal} {txs : List (LogTxn pageSize)} {lost : List Frame} {tail : Bytes}

/-- What lies behind the whole frames of a cut log commits nothing. -/
theorem LogInv.cut_inert (h : LogInv c pageSize w txs lost tail) {n : Nat} {rest : Bytes}
    (hcrc : w.version = .v2 →
      CollisionFree c w.cfg lost ((w.file.bytes.take n).drop w.endOff) (appendSeed w))
    (hcases : (wholeFrames c w.cfg (n - 32) (txnFrames txs) = txnFrames txs ∧
        rest = tail.take (n - 32 - framesSize c w.cfg (txnFrames txs))) ∨
      ((∀ r, frameAt c w.cfg rest r = none) ∧
        (w.cfg.version = .v1 → rest.length < 24 + w.cfg.pageSize))) :
    Inert c w.cfg rest
        (rollingAfter w.cfg w.salt1 (wholeFrames c w.cfg (n - 32) (txnFrames txs))) ∧
      (w.version = .v1 → TailSound c w.cfg rest) := by
  rcases hcases with ⟨hall, hrest⟩ | ⟨hnone, hlen⟩
  · cases hv : w.version with
    | v1 =>
      have hsound := (h.sound hv).take hv (n - 32 - framesSize c w.cfg (txnFrames txs))
      rw [← hrest] at hsound
      exact ⟨hsound.inert _, fun _ => hsound⟩
    | v2 =>
      have hend : w.endOff = 32 + framesSize c w.cfg (txnFrames txs) := by
        rw [h.rep.endOff, length_encFrames]
      -- the stale bytes are those behind the end of the log
      have hdrop : (w.file.bytes.take n).drop w.endOff = rest := by
        have hpre : w.endOff = (walHeader w ++ encFrames c w.cfg w.salt1 (txnFrames txs)).length := by
          rw [length_append, length_walHeader, length_encFrames, hend]
        rw [drop_take, h.rep.bytes, ← append_assoc, hpre, drop_left, hrest, ← hpre,
          hend, Nat.sub_sub]
      have hfree := hcrc hv
      rw [hdrop, h.rep.appendSeed_eq, ← hall] at hfree
      exact ⟨hfree.inert h.lost, fun hv1 => by cases hv1⟩
  · exact ⟨.stop _ _ (hnone _), fun hv => tailSound_of_none hv hnone (hlen hv)⟩

/-- **One crash**: the log recovers the transactions that are whole in the first `n` bytes of
its file. -/
theorem LogInv.crash (hc : c.Inverts) (h : LogInv c pageSize w txs lost tail) (n : Nat)
    (hcrc : w.version = .v2 →
      CollisionFree c w.cfg lost ((w.file.bytes.take n).drop w.endOff) (appendSeed w)) :
    ∃ w' tail', walOpen c ⟨w.file.bytes.take n, []⟩ pageSize = (.ok, w') ∧
      w'.dbSize = txnsDbSize (retained c w.cfg (n - 32) txs) ∧
      LogInv c pageSize w' (retained c w.cfg (n - 32) txs)
        (lost ++ tornFrames c w.cfg (n - 32) txs) tail' := by
  have hps := h.rep.size_lt
  have hlost : ∀ f ∈ lost ++ tornFrames c w.cfg (n - 32) txs, f.dbSize = 0 := by
    intro f hf
    rcases mem_append.mp hf with hf | hf
    · exact h.lost f hf
    · exact looseFrames_dbSize hf
  by_cases hn : n < 32
  · -- not even the header is left
    obtain ⟨w', hopen, -, hsize, hdb, -, hrep⟩ := walOpen_fresh (c := c) hps
      (show (⟨w.file.bytes.take n, []⟩ : File).fail = [] from rfl) (by simp; omega)
    rw [show n - 32 = 0 from by omega, retained_zero] at *
    refine ⟨w', [], h.size ▸ hopen, hdb, hrep, hsize.trans h.size, fun _ => tailSound_nil _ _, ?_⟩
    exact hlost
  · obtain ⟨rest, hcut, hcases⟩ := take_encFrames (c := c) (k := w.cfg) hps h.rep.pages tail
      (n - 32) w.salt1
    set whole := wholeFrames c w.cfg (n - 32) (txnFrames txs) with hwhole
    have hsub : ∀ f ∈ whole, f ∈ txnFrames txs := fun f hf =>
      (wholeFrames_sublist c w.cfg _ _).subset hf
    have hbytes : (w.file.bytes.take n)
        = walHeader w ++ (encFrames c w.cfg w.salt1 whole ++ rest) := by
      rw [h.rep.bytes, take_append, length_walHeader, hcut,
        take_of_length_le (by simp; omega)]
    obtain ⟨hinert, hsound⟩ := h.cut_inert hcrc hcases
    obtain ⟨w', hopen, -, hcfg, -, hdb, hrep⟩ := walOpen_rep hc hps
      (show (⟨w.file.bytes.take n, []⟩ : File).bytes = _ from hbytes)
      (fun f hf => h.rep.pages f (hsub f hf)) (fun f hf => h.rep.pgnos f (hsub f hf)) hinert rfl
    have hcom : committedFrames whole = txnFrames (retained c w.cfg (n - 32) txs) :=
      committed_wholeFrames txs (n - 32)
    have hver : w'.version = w.version := Wal.version_of_cfg hcfg
    rw [hcom] at hrep
    refine ⟨w', _, h.size ▸ hopen, ?_, hrep, ?_, ?_, hlost⟩
    · rw [hdb, ← lastDbSize_committed, hcom, lastDbSize_txnFrames]
    · exact (Wal.pageSize_of_cfg hcfg).trans h.size
    · intro hv
      rw [hver] at hv
      rw [hcfg]
      exact (hsound hv).frames hv (fun f hf => h.rep.pages f (hsub f (mem_looseFrames hf)))
        (fun f hf => looseFrames_dbSize hf) _

end Steps

end Tdb
