import Mathlib.Data.List.DropRight
import TransactionDB.Storage.WalRep

/-!
# TransactionDB — what recovery finds

`recover` runs two loops over the log file. The first validates frames from the start and
remembers the last commit it saw; the second indexes the committed frames only. On a file
that holds the frames `fs` and then a tail, the first loop goes through `fs` frame by frame
(`scanLoop_frames`) and into the tail; where the tail never shows it a commit frame
(`Inert`), the log that comes out holds exactly `committedFrames fs` (`walOpen_rep`).

A tail is inert when the loop stops at once, as at a frame that was cut short, or when
whatever it accepts there commits nothing. The second case is what a later append must
preserve, so it is stated for every place the loop could start from (`TailSound`).
-/

namespace Tdb

open Layout List

variable {fs : List Frame} {c : Codec} {w : Wal} {k : LogCfg} {tail : Bytes}

/-! ## Committed frames -/

/-- The frames up to the last commit. -/
def committedFrames (fs : List Frame) : List Frame := fs.rdropWhile (fun f => f.dbSize = 0)

/-- The frames behind the last commit. -/
def looseFrames (fs : List Frame) : List Frame := fs.rtakeWhile (fun f => f.dbSize = 0)

/-- The database size of the last commit, zero where there is none. -/
def lastDbSize (fs : List Frame) : UInt32 :=
  fs.foldl (fun acc f => if f.dbSize ≠ 0 then f.dbSize else acc) 0

theorem committedFrames_append (fs : List Frame) (f : Frame) :
    committedFrames (fs ++ [f]) = if f.dbSize ≠ 0 then fs ++ [f] else committedFrames fs := by
  rw [committedFrames, rdropWhile_concat]
  by_cases h : f.dbSize = 0
  · simp [h, committedFrames]
  · simp [h]

theorem lastDbSize_append (fs : List Frame) (f : Frame) :
    lastDbSize (fs ++ [f]) = if f.dbSize ≠ 0 then f.dbSize else lastDbSize fs := by
  simp [lastDbSize, foldl_append]

theorem committed_append_loose (fs : List Frame) :
    committedFrames fs ++ looseFrames fs = fs :=
  rdropWhile_append_rtakeWhile

theorem mem_committedFrames {f : Frame} (h : f ∈ committedFrames fs) :
    f ∈ fs := by
  rw [← committed_append_loose fs]
  exact mem_append_left _ h

theorem mem_looseFrames {f : Frame} (h : f ∈ looseFrames fs) : f ∈ fs := by
  rw [← committed_append_loose fs]
  exact mem_append_right _ h

theorem looseFrames_dbSize {f : Frame} (h : f ∈ looseFrames fs) :
    f.dbSize = 0 := by
  simpa using mem_rtakeWhile_imp h

/-! ## The validating loop -/

/-- Where the frames of a log start, one after the other. -/
def frameStarts (c : Codec) (k : LogCfg) (seed : UInt32) (fs : List Frame) : List Nat :=
  (List.range fs.length).map (fun i => 32 + (encFrames c k seed (fs.take i)).length)

/-- The loop's variables behind the frames `fs`. -/
def scanState (c : Codec) (k : LogCfg) (fs : List Frame) : Scan where
  idx := fs.length
  off := 32 + (encFrames c k k.salt1 fs).length
  committed := (committedFrames fs).length
  committedDbsize := lastDbSize fs
  committedEnd := 32 + (encFrames c k k.salt1 (committedFrames fs)).length
  rolling := rollingAfter k k.salt1 fs
  offsets := if k.version = .v2 then frameStarts c k k.salt1 fs else []

theorem frameStarts_append (c : Codec) (k : LogCfg) (seed : UInt32) (fs : List Frame)
    (f : Frame) : frameStarts c k seed (fs ++ [f])
      = frameStarts c k seed fs ++ [32 + (encFrames c k seed fs).length] := by
  unfold frameStarts
  rw [length_append, length_singleton, range_succ, map_append]
  congr 1
  · apply map_congr_left
    intro i hi
    rw [take_append_of_le_length (by simp at hi; omega)]
  · simp

/-- Accepting the next frame moves the loop's variables behind it. -/
theorem scanState_append (c : Codec) (k : LogCfg) (fs : List Frame) (f : Frame) :
    (scanState c k fs).accept k.version ⟨f.pgno, f.dbSize, f.page,
        frameCrc k (rollingAfter k k.salt1 fs) f,
        (encFrame c k (rollingAfter k k.salt1 fs) f).length⟩
      = scanState c k (fs ++ [f]) := by
  have henc : (encFrames c k k.salt1 (fs ++ [f])).length
      = (encFrames c k k.salt1 fs).length
        + (encFrame c k (rollingAfter k k.salt1 fs) f).length := by
    rw [encFrames_append]; simp [encFrames]
  have hstarts : (frameStarts c k k.salt1 fs).length = fs.length := by simp [frameStarts]
  simp only [Scan.accept, scanState, committedFrames_append, lastDbSize_append]
  congr 1
  · simp
  · omega
  · split <;> simp
  · split
    · rw [henc]; omega
    · rfl
  · rw [rollingAfter_append]; rfl
  · split
    · rw [frameStarts_append, ← hstarts]
      have := writePad_append 0 (frameStarts c k k.salt1 fs)
        [32 + (encFrames c k k.salt1 fs).length] []
      simpa using this
    · rfl

/-- **The loop accepts every frame of the log**, whatever lies behind them. Induction on the
frames still to be read. -/
theorem scanLoop_frames (hc : c.Inverts) (hps : w.pageSize < 2 ^ 32) (hdr tail : Bytes)
    (hhdr : hdr.length = 32) (fuel : Nat) (fs : List Frame) :
    ∀ pre, (∀ f ∈ fs, f.page.length = w.pageSize) →
      w.file.bytes = hdr ++ (encFrames c w.cfg w.salt1 (pre ++ fs) ++ tail) →
      scanLoop c w (fuel + fs.length) (scanState c w.cfg pre)
        = scanLoop c w fuel (scanState c w.cfg (pre ++ fs)) := by
  induction fs with
  | nil =>
    intro pre _ _
    simp
  | cons f fs ih =>
    intro pre hp hbytes
    have hf : f.page.length = w.cfg.pageSize := hp f (by simp)
    -- the unread part of the file starts with the encoding of `f`
    have hdrop : w.file.bytes.drop (scanState c w.cfg pre).off
        = encFrame c w.cfg (rollingAfter w.cfg w.cfg.salt1 pre) f
          ++ (encFrames c w.cfg (frameCrc w.cfg (rollingAfter w.cfg w.cfg.salt1 pre) f) fs
            ++ tail) := by
      have hoff : (scanState c w.cfg pre).off
          = (hdr ++ encFrames c w.cfg w.salt1 pre).length := by
        simp [scanState, hhdr, Wal.cfg]
      rw [hbytes, encFrames_append, encFrames, hoff, append_assoc, ← append_assoc hdr,
        drop_left]
      simp [Wal.cfg, append_assoc]
    have hacc := frameAt_encFrame (c := c) hc (k := w.cfg) hps hf
      (rollingAfter w.cfg w.cfg.salt1 pre)
      (encFrames c w.cfg (frameCrc w.cfg (rollingAfter w.cfg w.cfg.salt1 pre) f) fs ++ tail)
    rw [← hdrop] at hacc
    have hstep := ih (pre ++ [f]) (forall_mem_cons.mp hp).2 (by
      rw [hbytes, append_assoc]; rfl)
    rw [append_assoc, singleton_append] at hstep
    rw [← hstep, length_cons, ← Nat.add_assoc, scanLoop,
      show (scanState c w.cfg pre).rolling = rollingAfter w.cfg w.cfg.salt1 pre from rfl, hacc]
    simp only
    rw [show w.version = w.cfg.version from rfl, scanState_append]

/-! ## The tail -/

/-- The loop, entering `bs` with rolling checksum `r`, finds no commit frame there. -/
inductive Inert (c : Codec) (k : LogCfg) : Bytes → UInt32 → Prop where
  | stop (bs : Bytes) (r : UInt32) (h : frameAt c k bs r = none) : Inert c k bs r
  | skip (bs : Bytes) (r : UInt32) (fr : FrameRead) (h : frameAt c k bs r = some fr)
      (hdb : fr.dbSize = 0) (hrest : Inert c k (bs.drop fr.len) fr.crc1) : Inert c k bs r

/-- In an inert tail the loop commits nothing and keeps the offsets it has. -/
theorem scanLoop_inert {bs : Bytes} {r : UInt32} (h : Inert c w.cfg bs r) :
    ∀ (fuel : Nat) (s : Scan), w.file.bytes.drop s.off = bs →
      s.rolling = r → (w.version = .v2 → s.offsets.length = s.idx) →
      (scanLoop c w fuel s).committed = s.committed ∧
      (scanLoop c w fuel s).committedDbsize = s.committedDbsize ∧
      (scanLoop c w fuel s).committedEnd = s.committedEnd ∧
      ∀ i, i < s.idx → (scanLoop c w fuel s).offsets[i]? = s.offsets[i]? := by
  induction h with
  | stop bs r hnone =>
    intro fuel s hbs hr _
    cases fuel with
    | zero => simp [scanLoop]
    | succ fuel => simp [scanLoop, hbs, hr, hnone]
  | skip bs r fr hsome hdb _ ih =>
    intro fuel s hbs hr hlen
    cases fuel with
    | zero => simp [scanLoop]
    | succ fuel =>
      have hoff : w.file.bytes.drop (s.accept w.version fr).off = bs.drop fr.len := by
        simp [Scan.accept, ← hbs, drop_drop]
      have hlen' : w.version = .v2 →
          (s.accept w.version fr).offsets.length = (s.accept w.version fr).idx := by
        intro hv
        simp only [Scan.accept, hv, if_true]
        rw [length_writePad 0 (by simp), hlen hv, length_singleton]
        omega
      obtain ⟨h1, h2, h3, h4⟩ := ih fuel (s.accept w.version fr) hoff rfl hlen'
      rw [scanLoop, hbs, hr, hsome]
      simp only
      refine ⟨h1.trans (by simp [Scan.accept, hdb]), h2.trans (by simp [Scan.accept, hdb]),
        h3.trans (by simp [Scan.accept, hdb]), ?_⟩
      intro i hi
      rw [h4 i (by simp [Scan.accept]; omega)]
      simp only [Scan.accept]
      split
      · rename_i hv
        rw [getElem?_writePad 0 (le_of_eq (hlen hv).symm), if_pos hi]
      · rfl

/-- What the loop reads from a frame it accepts. -/
theorem frameAt_some_inv {bs : Bytes} {r : UInt32} {fr : FrameRead} (h : frameAt c k bs r = some fr) :
    24 ≤ bs.length ∧
      framePayload c k bs = some (fr.page, fr.len) ∧ fr.dbSize = getU32 bs 4 := by
  unfold frameAt at h
  split at h
  · rename_i h24
    split at h
    · cases h
    · rename_i page len hpay
      simp only at h
      split at h
      · split at h
        · cases h
          exact ⟨h24, hpay, rfl⟩
        · cases h
      · cases h
  · cases h

theorem framePayload_len {bs page : Bytes} {len : Nat} (h : framePayload c k bs = some (page, len)) :
    24 ≤ len ∧ (k.version = .v1 → len = 24 + k.pageSize ∧ len ≤ bs.length) := by
  unfold framePayload at h
  split at h
  · split at h
    · cases h
    · cases h
      exact ⟨by omega, fun _ => ⟨rfl, by omega⟩⟩
  · rename_i hv
    refine ⟨?_, fun h1 => absurd (h1.symm.trans hv) (by decide)⟩
    simp only at h
    split at h
    · cases h
    · split at h
      · cases h
      · split at h
        · split at h
          · cases h
          · split at h
            · cases h; omega
            · cases h
        · cases h; omega

/-- Wherever the recovery loop could enter the tail, it accepts no commit frame there. In
version 1 it only ever enters at a multiple of the frame size. -/
def TailSound (c : Codec) (k : LogCfg) (tail : Bytes) : Prop :=
  ∀ (j : Nat) (r : UInt32) (fr : FrameRead), (k.version = .v1 → (24 + k.pageSize) ∣ j) →
    frameAt c k (tail.drop j) r = some fr → fr.dbSize = 0

theorem tailSound_nil (c : Codec) (k : LogCfg) : TailSound c k [] := by
  intro j r fr _ h
  rw [drop_nil] at h
  simp [frameAt] at h

/-- What an append leaves of a sound tail is sound. -/
theorem TailSound.drop (h : TailSound c k tail) {n : Nat}
    (hn : k.version = .v1 → (24 + k.pageSize) ∣ n) : TailSound c k (tail.drop n) := by
  intro j r fr hj hfr
  rw [drop_drop] at hfr
  exact h (n + j) r fr (fun hv => Nat.dvd_add (hn hv) (hj hv)) hfr

/-- A sound tail is inert, from any rolling checksum. Induction on its length. -/
theorem TailSound.inert (h : TailSound c k tail) (r : UInt32) : Inert c k tail r := by
  induction hn : tail.length using Nat.strong_induction_on generalizing tail r with
  | _ n ih =>
    cases hfr : frameAt c k tail r with
    | none => exact .stop _ _ hfr
    | some fr =>
      obtain ⟨h24, hpay, -⟩ := frameAt_some_inv hfr
      obtain ⟨hlen, hv1⟩ := framePayload_len hpay
      have hdb : fr.dbSize = 0 := h 0 r fr (fun _ => Nat.dvd_zero _) (by simpa using hfr)
      have hrest : TailSound c k (tail.drop fr.len) :=
        h.drop (fun hv => by rw [(hv1 hv).1])
      exact .skip _ _ fr hfr hdb (ih _ (by simp; omega) hrest fr.crc1 rfl)

/-! ## The indexing loop -/

/-- The second loop of `recover` rebuilds the page map of the frames it is told to index.
Induction on the frames still to be indexed. -/
theorem rebuildMap_spec (h : FramesIn c w fs tail) : ∀ (n i : Nat) (map : List Nat), i + n = fs.length →
      (∀ g : UInt32, MapEntry (fs.take i) (map.getD g.toNat 0) g) → map.length ≤ 2 ^ 31 →
      ∃ map', rebuildMap w n i map = (.ok, map') ∧
        (∀ g : UInt32, MapEntry fs (map'.getD g.toNat 0) g) ∧ map'.length ≤ 2 ^ 31 := by
  intro n
  induction n with
  | zero =>
    intro i map hi hmap hlen
    rw [take_of_length_le (by omega)] at hmap
    exact ⟨map, rfl, hmap, hlen⟩
  | succ n ih =>
    intro i map hi hmap hlen
    have hlt : i < fs.length := by omega
    set f := fs[i] with hfdef
    have hf : fs[i]? = some f := getElem?_eq_getElem hlt
    have hpg : f.pgno.toNat < 2 ^ 31 := h.pgnos f (getElem_mem hlt)
    -- the header read back names the frame's page
    have hread : getU32 (fileRead w.file 24 (frameOffset w i)) 0 = f.pgno := by
      have := (getU32_encHeader w.cfg (rollingAfter w.cfg w.salt1 (fs.take i)) f []).1
      rwa [append_nil, ← h.read_header hf] at this
    have hnext : fs.take (i + 1) = fs.take i ++ [f] := by
      rw [take_add_one, hf]; rfl
    have htake : (fs.take i).length = i := by simp; omega
    obtain ⟨map', hrun, hres⟩ := ih (i + 1) (writePad 0 map f.pgno.toNat [i + 1]) (by omega)
      (by
        intro g
        have := MapEntry.append hmap f g
        rwa [htake, ← hnext] at this)
      (by
        rw [length_writePad 0 (by simp), length_singleton]
        omega)
    refine ⟨map', ?_, hres⟩
    rw [rebuildMap, hread, mapEnsure, if_pos hpg]
    exact hrun

/-! ## Opening a log -/

theorem length_encFrames_ge (c : Codec) (k : LogCfg) (seed : UInt32) (fs : List Frame) :
    fs.length ≤ (encFrames c k seed fs).length := by
  induction fs generalizing seed with
  | nil => simp
  | cons f fs ih =>
    have := ih (frameCrc k seed f)
    rw [encFrames, length_append, length_encFrame, length_cons]
    omega

/-- A file with the header of a log is recovered as that log. -/
theorem recover_header {file : File} {rest : Bytes} (hps : w.pageSize < 2 ^ 32)
    (hbytes : file.bytes = walHeader w ++ rest) : recover c (walInit c file w.pageSize) =
      recoverFrames c { walInit c file w.pageSize with
        version := w.version, salt1 := w.salt1, salt2 := w.salt2, ckptSeq := w.ckptSeq } := by
  have hlen : 32 ≤ file.bytes.length := by
    rw [hbytes, length_append, length_walHeader]
    omega
  have hhdr : fileRead file 32 0 = walHeader w :=
    fileRead_mid [] (walHeader w) rest (by rw [nil_append]; exact hbytes) (by simp) rfl
  have hmagic : getU32 (walHeader w) 0 = walMagic := getU32_walHeader (by simp [walHeaderFields])
  have hver : getU32 (walHeader w) 4 = w.version.code :=
    getU32_walHeader (by simp [walHeaderFields])
  have hsize : (getU32 (walHeader w) 8).toNat = w.pageSize := by
    rw [getU32_walHeader (v := UInt32.ofNat w.pageSize) (by simp [walHeaderFields]),
      UInt32.toNat_ofNat', Nat.mod_eq_of_lt hps]
  have hseq : getU32 (walHeader w) 12 = w.ckptSeq := getU32_walHeader (by simp [walHeaderFields])
  have hs1 : getU32 (walHeader w) 16 = w.salt1 := getU32_walHeader (by simp [walHeaderFields])
  have hs2 : getU32 (walHeader w) 20 = w.salt2 := getU32_walHeader (by simp [walHeaderFields])
  unfold recover
  rw [show (walInit c file w.pageSize).file = file from rfl,
    show (walInit c file w.pageSize).pageSize = w.pageSize from rfl, if_neg (by omega)]
  simp only [hhdr, hmagic, hver, hsize, hseq, hs1, hs2, WalVersion.ofCode_code]
  rw [if_neg (by simp), if_neg (by simp)]
  rfl

section

variable (hc : c.Inverts) (hps : w.pageSize < 2 ^ 32) {file : File}
  (hbytes : file.bytes = walHeader w ++ (encFrames c w.cfg w.salt1 fs ++ tail))
  (hpages : ∀ f ∈ fs, f.page.length = w.pageSize) (hpgnos : ∀ f ∈ fs, f.pgno.toNat < 2 ^ 31)
  (hinert : Inert c w.cfg tail (rollingAfter w.cfg w.salt1 fs))

include hc hps hbytes hpages hpgnos hinert

/-- Recovery of a file that holds a header, frames and an inert tail: the log that comes out
holds the committed frames, and everything behind them is its tail. -/
theorem recover_rep :
    ∃ w', recover c (walInit c file w.pageSize) = (.ok, w') ∧ w'.file = file ∧
      w'.cfg = w.cfg ∧ w'.ckptSeq = w.ckptSeq ∧ w'.dbSize = lastDbSize fs ∧
      LogRep c w' (committedFrames fs)
        (encFrames c w.cfg (rollingAfter w.cfg w.salt1 (committedFrames fs)) (looseFrames fs)
          ++ tail) := by
  have hlen : file.bytes.length
      = 32 + (encFrames c w.cfg w.salt1 fs).length + tail.length := by
    rw [hbytes]; simp; omega
  -- the log object the loops run on
  set w1 : Wal := { walInit c file w.pageSize with
    version := w.version, salt1 := w.salt1, salt2 := w.salt2, ckptSeq := w.ckptSeq } with hw1
  have hcfg : w1.cfg = w.cfg := rfl
  -- first loop: through the frames, then into the tail
  have hfuel : file.bytes.length = (file.bytes.length - fs.length) + fs.length := by
    have := length_encFrames_ge c w.cfg w.salt1 fs
    omega
  have hscan := scanLoop_frames hc (w := w1) hps (walHeader w) tail (by simp)
    (file.bytes.length - fs.length) fs [] hpages hbytes
  rw [← hfuel, nil_append, hcfg] at hscan
  have hstart : scanState c w.cfg [] = ⟨0, 32, 0, 0, 32, w.salt1, []⟩ := by
    simp [scanState, encFrames, committedFrames, lastDbSize, rollingAfter, frameStarts, Wal.cfg]
  obtain ⟨hcom, hdb, hend, hoffs⟩ := scanLoop_inert (w := w1) (hcfg ▸ hinert)
    (file.bytes.length - fs.length) (scanState c w.cfg fs)
    (by
      show file.bytes.drop _ = tail
      rw [hbytes, ← append_assoc]
      have : (scanState c w.cfg fs).off
          = (walHeader w ++ encFrames c w.cfg w.salt1 fs).length := by
        simp [scanState, Wal.cfg]
      rw [this, drop_left])
    rfl
    (by
      intro hv
      have hv' : w.cfg.version = .v2 := hv
      simp [scanState, hv', frameStarts])
  set s := scanLoop c w1 (file.bytes.length - fs.length) (scanState c w.cfg fs) with hs
  rw [hstart] at hscan
  -- what the second loop indexes: the committed frames
  set w2 : Wal := { w1 with offsets := s.offsets } with hw2
  have hsplit := committed_append_loose fs
  have hframes : FramesIn c w2 (committedFrames fs)
      (encFrames c w.cfg (rollingAfter w.cfg w.salt1 (committedFrames fs)) (looseFrames fs)
        ++ tail) := by
    refine ⟨hps, ?_, ?_, fun f hf => hpages f (mem_committedFrames hf),
      fun f hf => hpgnos f (mem_committedFrames hf)⟩
    · show file.bytes = walHeader w ++ (encFrames c w.cfg w.salt1 (committedFrames fs) ++ _)
      rw [hbytes, ← append_assoc (encFrames c w.cfg w.salt1 (committedFrames fs)),
        ← encFrames_append, hsplit]
    · intro hv i hi
      have hle : (committedFrames fs).length ≤ fs.length := by
        conv_rhs => rw [← hsplit]
        simp
      have hv' : w.cfg.version = .v2 := hv
      have htake : (committedFrames fs).take i = fs.take i := by
        conv_rhs => rw [← hsplit]
        rw [take_append_of_le_length (by omega)]
      show s.offsets[i]? = _
      rw [hoffs i (show i < fs.length from by omega), htake]
      simp only [scanState, hv', if_true, frameStarts]
      rw [getElem?_map, getElem?_range (by omega)]
      rfl
  obtain ⟨map', hmap, hentries, hmaplen⟩ := rebuildMap_spec hframes
    (committedFrames fs).length 0 [] (by omega) (by intro g; exact Or.inl ⟨by simp, rfl⟩)
    (by simp)
  refine ⟨{ w2 with map := map', nframe := s.committed, dbSize := s.committedDbsize,
                    endOff := s.committedEnd }, ?_, rfl, rfl, rfl, hdb, ?_⟩
  · have hframesrun : recoverFrames c w1 = (.ok, { w2 with
        map := map', nframe := s.committed, dbSize := s.committedDbsize,
        endOff := s.committedEnd }) := by
      have hcom' : s.committed = (committedFrames fs).length := hcom
      unfold recoverFrames
      rw [show w1.file.bytes.length = file.bytes.length from rfl,
        show w1.offsets = [] from rfl, show w1.salt1 = w.salt1 from rfl, hscan]
      simp only [hcom']
      rw [← hw2, hmap]
    rw [recover_header hps hbytes]
    exact hframesrun
  · exact ⟨⟨hframes.size_lt, hframes.bytes, hframes.offsets, hframes.pages, hframes.pgnos⟩,
      hcom, hend, hentries, hmaplen⟩

/-- **Opening a log recovers its committed frames.** The file is not changed by it: where no
frame is committed, the header that is written is the one already there. -/
theorem walOpen_rep (hfail : file.fail = []) :
    ∃ w', walOpen c file w.pageSize = (.ok, w') ∧ w'.file = file ∧
      w'.cfg = w.cfg ∧ w'.ckptSeq = w.ckptSeq ∧ w'.dbSize = lastDbSize fs ∧
      LogRep c w' (committedFrames fs)
        (encFrames c w.cfg (rollingAfter w.cfg w.salt1 (committedFrames fs)) (looseFrames fs)
          ++ tail) := by
  obtain ⟨w', hrec, hfile, hcfg, hseq, hdb, hrep⟩ :=
    recover_rep hc hps hbytes hpages hpgnos hinert
  unfold walOpen
  rw [hrec]
  by_cases h0 : w'.nframe = 0
  · have hnil : committedFrames fs = [] := eq_nil_of_length_eq_zero (hrep.nframe ▸ h0)
    have hend : w'.endOff = 32 := by rw [hrep.endOff, hnil]; rfl
    have hsame : writePad 0 file.bytes 0 (walHeader w') = file.bytes := by
      rw [walHeader_congr hcfg hseq, hbytes]
      have := writePad_append 0 [] (walHeader w) (walHeader w ++ (encFrames c w.cfg w.salt1 fs ++ tail))
      rw [nil_append, nil_append, drop_left] at this
      exact this
    have hwrite : writeHeader w' = (.ok, w') := by
      unfold writeHeader
      rw [hfile, fileWrite_ok hfail, hsame, ← hfail, ← hfile]
    simp only [if_pos h0, hwrite]
    exact ⟨w', by rw [← hend], hfile, hcfg, hseq, hdb, hrep⟩
  · simp only [if_neg h0]
    exact ⟨w', rfl, hfile, hcfg, hseq, hdb, hrep⟩

end

/-- Opening a file too short for a header starts an empty log. -/
theorem walOpen_fresh {pageSize : Nat} (hps : pageSize < 2 ^ 32) {file : File}
    (hfail : file.fail = []) (hshort : file.bytes.length < 32) :
    ∃ w', walOpen c file pageSize = (.ok, w') ∧ w'.file.fail = [] ∧ w'.pageSize = pageSize ∧
      w'.dbSize = 0 ∧ w'.version = (if c.active then .v2 else .v1) ∧ LogRep c w' [] [] := by
  set w := walInit c file pageSize with hw
  have hwrite : writeHeader w = (.ok, { w with file := ⟨walHeader w, []⟩ }) := by
    unfold writeHeader
    rw [show w.file = file from rfl, fileWrite_ok hfail]
    have := writePad_append 0 [] (walHeader w) file.bytes
    rw [nil_append, length_nil, nil_append, length_walHeader,
      drop_eq_nil_of_le (by omega), append_nil] at this
    rw [this]
  have hrec : recover c w = (.ok, w) := by
    unfold recover
    rw [if_pos (show w.file.bytes.length < 32 from hshort)]
  refine ⟨{ w with file := ⟨walHeader w, []⟩ }, ?_, rfl, rfl, rfl, rfl, ?_⟩
  · unfold walOpen
    rw [← hw, hrec]
    simp only [hwrite]
    rfl
  · exact LogRep.empty hps (walHeader_file w _).symm rfl rfl rfl

end Tdb
