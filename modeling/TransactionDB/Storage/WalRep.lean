import TransactionDB.Storage.WalLog

/-!
# TransactionDB — the log object refines a list of frames

`LogRep c w fs tail`: the log object `w` holds the frames `fs`, and `tail` lies behind them
in its file. Reading a page refines `lastImage`; appending refines `fs ++ [f]` and takes
the new frame's bytes off the tail; an append that fails rewrites the tail only.
-/

namespace Tdb

open Layout List

variable {w' : Wal} {isCommit : Bool} {pgno dbSize : UInt32} {page : Bytes}

/-- One entry of the page map: zero where no frame has the page, otherwise one plus the
index of its last frame. -/
def MapEntry (fs : List Frame) (slot : Nat) (pgno : UInt32) : Prop :=
  (slot = 0 ∧ lastImage fs pgno = none) ∨
  ∃ i f, slot = i + 1 ∧ fs[i]? = some f ∧ f.pgno = pgno ∧ lastImage fs pgno = some f.page

/-- The file of `w` holds the frames `fs`, and `w` knows where they start. -/
structure FramesIn (c : Codec) (w : Wal) (fs : List Frame) (tail : Bytes) : Prop where
  size_lt : w.pageSize < 2 ^ 32
  bytes : w.file.bytes = walHeader w ++ (encFrames c w.cfg w.salt1 fs ++ tail)
  offsets : w.version = .v2 → ∀ i, i < fs.length →
    w.offsets[i]? = some (32 + (encFrames c w.cfg w.salt1 (fs.take i)).length)
  pages : ∀ f ∈ fs, f.page.length = w.pageSize
  pgnos : ∀ f ∈ fs, f.pgno.toNat < 2 ^ 31

structure LogRep (c : Codec) (w : Wal) (fs : List Frame) (tail : Bytes) : Prop
    extends FramesIn c w fs tail where
  nframe : w.nframe = fs.length
  endOff : w.endOff = 32 + (encFrames c w.cfg w.salt1 fs).length
  map : ∀ g : UInt32, MapEntry fs (w.map.getD g.toNat 0) g
  map_length : w.map.length ≤ 2 ^ 31

variable {c : Codec} {w : Wal} {fs : List Frame} {tail : Bytes}

/-- A log without frames: only the header is in its file. -/
theorem LogRep.empty (hps : w.pageSize < 2 ^ 32) (hbytes : w.file.bytes = walHeader w)
    (hn : w.nframe = 0) (hmap : w.map = []) (hend : w.endOff = 32) : LogRep c w [] [] := by
  refine ⟨⟨hps, ?_, ?_, by simp, by simp⟩, hn, hend, ?_, by simp [hmap]⟩
  · rw [hbytes, encFrames, append_nil, append_nil]
  · intro _ i hi
    simp at hi
  · intro g
    exact Or.inl ⟨by simp [hmap], rfl⟩

/-! ## Where the frames lie -/

/-- Offset table and stride both give the layout's offset. -/
theorem FramesIn.frameOffset_eq (h : FramesIn c w fs tail) {i : Nat} (hi : i < fs.length) :
    frameOffset w i = 32 + (encFrames c w.cfg w.salt1 (fs.take i)).length := by
  cases hv : w.version with
  | v1 =>
    have hlen := length_encFrames_v1 c (k := w.cfg) hv w.salt1 (fs.take i)
      (fun f hf => h.pages f (mem_of_mem_take hf))
    have htake : (fs.take i).length = i := by simp; omega
    rw [hlen, htake]
    simp [frameOffset, hv, Wal.frameStride, Wal.cfg]
  | v2 =>
    have hoff := h.offsets hv i hi
    have hne : w.offsets ≠ [] := by
      intro hnil
      rw [hnil] at hoff
      simp at hoff
    rw [frameOffset, if_pos ⟨hv, hne⟩, getD_eq_getElem?_getD, hoff]
    rfl

/-- Where the next frame goes, in both versions. -/
theorem LogRep.append_offset (h : LogRep c w fs tail) :
    (if w.version = .v2 then w.endOff else frameOffset w w.nframe)
      = 32 + (encFrames c w.cfg w.salt1 fs).length := by
  cases hv : w.version with
  | v1 =>
    have hlen := length_encFrames_v1 c (k := w.cfg) hv w.salt1 fs h.pages
    rw [hlen, h.nframe]
    simp [frameOffset, hv, Wal.frameStride, Wal.cfg]
  | v2 => simp [h.endOff]

section

variable (h : FramesIn c w fs tail) {i : Nat} {f : Frame} (hi : fs[i]? = some f)

include h hi

/-- The file around frame `i`. -/
theorem FramesIn.split :
    ∃ pre rest, pre.length = frameOffset w i ∧ w.file.bytes
      = pre ++ (encFrame c w.cfg (rollingAfter w.cfg w.salt1 (fs.take i)) f ++ rest) := by
  obtain ⟨hlt, hget⟩ := List.getElem?_eq_some_iff.mp hi
  have hfs : fs = fs.take i ++ f :: fs.drop (i + 1) := by
    rw [← hget, getElem_cons_drop, take_append_drop]
  refine ⟨walHeader w ++ encFrames c w.cfg w.salt1 (fs.take i),
    encFrames c w.cfg (frameCrc w.cfg (rollingAfter w.cfg w.salt1 (fs.take i)) f)
      (fs.drop (i + 1)) ++ tail, ?_, ?_⟩
  · rw [h.frameOffset_eq hlt, length_append, length_walHeader]
  · rw [h.bytes]
    conv_lhs => rw [hfs, encFrames_append, encFrames]
    simp only [append_assoc]

/-- The header of frame `i`, read back from the file. -/
theorem FramesIn.read_header :
    fileRead w.file 24 (frameOffset w i)
      = encHeader w.cfg (rollingAfter w.cfg w.salt1 (fs.take i)) f := by
  obtain ⟨pre, rest, hpre, hbytes⟩ := h.split hi
  rw [encFrame, append_assoc] at hbytes
  exact fileRead_mid pre _ _ hbytes (by simp) hpre.symm

end

/-- The seed of the next frame is the rolling checksum behind the frames of the log. -/
theorem LogRep.appendSeed_eq (h : LogRep c w fs tail) :
    appendSeed w = rollingAfter w.cfg w.salt1 fs := by
  unfold appendSeed
  rcases eq_nil_or_concat fs with hnil | ⟨gs, f, hfs⟩
  · rw [if_pos (by rw [h.nframe, hnil]; rfl), hnil]
    rfl
  · rw [concat_eq_append] at hfs
    have hn : w.nframe = gs.length + 1 := by rw [h.nframe, hfs]; simp
    have hi : fs[gs.length]? = some f := by rw [hfs]; simp
    have htake : fs.take gs.length = gs := by rw [hfs]; simp
    have hcrc := (getU32_encHeader w.cfg (rollingAfter w.cfg w.salt1 gs) f []).2.2.2.2.1
    rw [append_nil] at hcrc
    rw [if_neg (by omega), hn, Nat.add_sub_cancel, h.read_header hi, htake, hcrc, hfs,
      rollingAfter_append]
    rfl

/-! ## Reading -/

/-- **Reading refines the list of frames**: a page reads as the image of its last frame. -/
theorem LogRep.readPage (h : LogRep c w fs tail) (hc : c.Inverts) (pgno : UInt32) :
    walReadPage c w pgno = (.ok, lastImage fs pgno) := by
  unfold walReadPage
  rcases h.map pgno with ⟨hslot, hnone⟩ | ⟨i, f, hslot, hi, -, himg⟩
  · simp only [hslot, hnone, if_true]
  · obtain ⟨hlt, -⟩ := List.getElem?_eq_some_iff.mp hi
    have hp : f.page.length = w.cfg.pageSize := h.pages f (mem_of_getElem? hi)
    obtain ⟨pre, rest, hpre, hbytes⟩ := h.split hi
    set seed := rollingAfter w.cfg w.salt1 (fs.take i)
    have hlow : ¬ i ≥ w.nframe := by rw [h.nframe]; omega
    simp only [hslot, Nat.add_sub_cancel, Nat.add_one_ne_zero, if_false, if_neg hlow, himg]
    cases hv : w.version with
    | v1 =>
      rw [encFrame, encPayload_v1 c (k := w.cfg) hv, append_assoc,
        ← append_assoc] at hbytes
      have hread : fileRead w.file w.pageSize (frameOffset w i + 24) = f.page :=
        fileRead_mid (pre ++ encHeader w.cfg seed f) f.page rest hbytes hp.symm (by simp [hpre])
      exact congrArg (fun page => (Status.ok, some page)) hread
    | v2 =>
      have hps : w.cfg.pageSize < 2 ^ 32 := h.size_lt
      have henc := encPayload_v2 c (k := w.cfg) hv f.page
      set packed := packPage c .v2 w.cfg.pageSize f.page with hpacked
      -- the five payload header bytes, and the payload behind them
      have hpfx : fileRead w.file 5 (frameOffset w i + 24)
          = putU32 (UInt32.ofNat packed.2.length) ++ [packed.1] := by
        apply fileRead_mid (pre ++ encHeader w.cfg seed f) _ (packed.2 ++ rest)
        · rw [hbytes, encFrame, henc]
          simp only [append_assoc]
        · simp
        · simp [hpre]
      have hphys' : (getU32 (fileRead w.file 5 (frameOffset w i + 24)) 0).toNat
          = packed.2.length := by
        rw [hpfx, getU32_append_left (by simp), getU32_putU32, UInt32.toNat_ofNat']
        have hle : packed.2.length ≤ w.cfg.pageSize := length_packPage_le c .v2 hp
        exact Nat.mod_eq_of_lt (by omega)
      have hcodec : (fileRead w.file 5 (frameOffset w i + 24)).getD 4 0 = packed.1 := by
        rw [hpfx, getD_eq_getElem?_getD, getElem?_append_right (by simp)]
        simp
      have hbuf : fileRead w.file packed.2.length (frameOffset w i + 24 + 5) = packed.2 := by
        apply fileRead_mid (pre ++ encHeader w.cfg seed f
            ++ (putU32 (UInt32.ofNat packed.2.length) ++ [packed.1])) _ rest
        · rw [hbytes, encFrame, henc]
          simp only [append_assoc]
        · rfl
        · simp [hpre]
      simp only [hphys', hcodec, hbuf]
      rcases packPage_cases c .v2 w.cfg.pageSize f.page with hcase | ⟨comp, hcase, -, hcomp, -⟩
      · rw [← hpacked] at hcase
        rw [hcase]
        have hzero : w.pageSize - f.page.length = 0 := by
          rw [hp]; exact Nat.sub_self _
        simp [hzero, zeros]
      · rw [← hpacked] at hcase
        have hdec : c.decompress comp w.pageSize = some f.page := by
          have := hc _ _ hcomp
          rwa [hp] at this
        rw [hcase]
        simp [hdec, show f.page.length = w.pageSize from hp]

/-! ## Appending -/

/-- The writes of the payload put its encoding behind a segment. -/
theorem writePayload_ok {w : Wal} {pre tail : Bytes} (h : w.file.bytes = pre ++ tail)
    {codec : UInt8} {payload : Bytes} {file : File}
    (hrun : writePayload w codec payload pre.length = (.ok, file)) :
    file.bytes = (match w.version with
      | .v1 => pre ++ (payload ++ tail.drop payload.length)
      | .v2 => pre ++ ((putU32 (UInt32.ofNat payload.length) ++ [codec] ++ payload)
          ++ tail.drop (5 + payload.length))) := by
  unfold writePayload at hrun
  cases hv : w.version with
  | v1 =>
    rw [hv] at hrun
    rw [(fileWrite_ok_inv hrun).1, h, writePad_append]
  | v2 =>
    rw [hv] at hrun
    simp only at hrun
    split at hrun
    · rename_i file1 hpfx
      have h1 := (fileWrite_ok_inv hpfx).1
      rw [h, writePad_append, ← append_assoc] at h1
      have h2 := (fileWrite_ok_inv hrun).1
      have hlen : pre.length + 5
          = (pre ++ (putU32 (UInt32.ofNat payload.length) ++ [codec])).length := by simp
      rw [h1, hlen, writePad_append] at h2
      rw [h2]
      simp [append_assoc]
    · rename_i rc file1 hne _
      cases hrun
      exact absurd rfl hne

/-- What an append that returned `TDB_OK` did, step by step. -/
theorem walAppend_ok_inv {w : Wal} (hrun : walAppend c w pgno page isCommit dbSize = (.ok, w')) :
    ∃ file1 file2,
      let f : Frame := ⟨pgno, if isCommit then dbSize else 0, page⟩
      let off := if w.version = .v2 then w.endOff else frameOffset w w.nframe
      let packed := packPage c w.version w.pageSize page
      fileWrite w.file (encHeader w.cfg (appendSeed w) f) off = (.ok, file1) ∧
      writePayload { w with file := file1 } packed.1 packed.2 (off + 24) = (.ok, file2) ∧
      pgno.toNat < 2 ^ 31 ∧
      w' = { w with
        file := file2
        offsets := if w.version = .v2 then writePad 0 w.offsets w.nframe [off] else w.offsets
        endOff := off + 24 + (if w.version = .v2 then 5 else 0) + packed.2.length
        map := writePad 0 w.map pgno.toNat [w.nframe + 1]
        nframe := w.nframe + 1
        dbSize := if isCommit then dbSize else w.dbSize } := by
  unfold walAppend at hrun
  simp only at hrun
  split at hrun
  · rename_i file1 hhdr
    split at hrun
    · rename_i file2 hpay
      unfold mapEnsure at hrun
      by_cases hlt : pgno.toNat < 2 ^ 31
      · rw [if_pos hlt] at hrun
        cases hrun
        exact ⟨file1, file2, hhdr, hpay, hlt, rfl⟩
      · rw [if_neg hlt] at hrun
        cases hrun
    · rename_i rc file2 hne _
      cases hrun
      exact absurd rfl hne
  · rename_i rc file1 hne _
    cases hrun
    exact absurd rfl hne

/-- The page map after one more frame. -/
theorem MapEntry.append {map : List Nat} (h : ∀ g : UInt32, MapEntry fs (map.getD g.toNat 0) g)
    (f : Frame) (g : UInt32) :
    MapEntry (fs ++ [f]) ((writePad 0 map f.pgno.toNat [fs.length + 1]).getD g.toNat 0) g := by
  rw [getD_writePad]
  by_cases hg : f.pgno = g
  · -- the page just written
    rw [if_pos (by simp [hg]), hg, Nat.sub_self]
    exact Or.inr ⟨fs.length, f, rfl, by simp, hg, by rw [lastImage_append, if_pos hg]⟩
  · have hne : ¬ (f.pgno.toNat ≤ g.toNat ∧ g.toNat < f.pgno.toNat + [fs.length + 1].length) := by
      rw [length_singleton]
      intro hle
      exact hg (UInt32.toNat_inj.mp (by omega))
    rw [if_neg hne]
    rcases h g with ⟨hslot, hnone⟩ | ⟨i, f', hslot, hi, hpg, himg⟩
    · exact Or.inl ⟨hslot, by rw [lastImage_append, if_neg hg, hnone]⟩
    · refine Or.inr ⟨i, f', hslot, ?_, hpg, by rw [lastImage_append, if_neg hg, himg]⟩
      obtain ⟨hlt, -⟩ := List.getElem?_eq_some_iff.mp hi
      rw [getElem?_append_left hlt, hi]

/-- **Appending refines the list of frames.** An append that returned `TDB_OK` adds its
frame behind the others and takes the frame's bytes off the tail. -/
theorem LogRep.append (h : LogRep c w fs tail) (hp : page.length = w.pageSize)
    (hrun : walAppend c w pgno page isCommit dbSize = (.ok, w')) :
    LogRep c w' (fs ++ [⟨pgno, if isCommit then dbSize else 0, page⟩])
      (tail.drop (24 + (encPayload c w.cfg page).length)) := by
  obtain ⟨file1, file2, hhdr, hpay, hlt, hw'⟩ := walAppend_ok_inv hrun
  set f : Frame := ⟨pgno, if isCommit then dbSize else 0, page⟩ with hf
  rw [h.append_offset] at hhdr hpay hw'
  rw [h.appendSeed_eq] at hhdr
  set seed := rollingAfter w.cfg w.salt1 fs with hseed
  -- the file after the two writes
  have hpre : 32 + (encFrames c w.cfg w.salt1 fs).length
      = (walHeader w ++ encFrames c w.cfg w.salt1 fs).length := by simp
  have h1 : file1.bytes = walHeader w ++ encFrames c w.cfg w.salt1 fs
      ++ encHeader w.cfg seed f ++ tail.drop 24 := by
    have := (fileWrite_ok_inv hhdr).1
    rw [h.bytes, ← append_assoc, hpre, writePad_append, ← append_assoc] at this
    simpa using this
  have h2 : file2.bytes = walHeader w ++ encFrames c w.cfg w.salt1 fs
      ++ encFrame c w.cfg seed f ++ tail.drop (24 + (encPayload c w.cfg page).length) := by
    have hpre' : 32 + (encFrames c w.cfg w.salt1 fs).length + 24
        = (walHeader w ++ encFrames c w.cfg w.salt1 fs ++ encHeader w.cfg seed f).length := by
      simp; omega
    rw [hpre'] at hpay
    rw [writePayload_ok (w := { w with file := file1 }) h1 hpay, encFrame, hf]
    cases hv : w.version with
    | v1 =>
      rw [encPayload_v1 c (k := w.cfg) hv]
      simp [packPage, append_assoc]
    | v2 =>
      rw [encPayload_v2 c (k := w.cfg) hv]
      simp [append_assoc, Wal.cfg]
      congr 1
      omega
  have henc : encFrames c w.cfg w.salt1 (fs ++ [f])
      = encFrames c w.cfg w.salt1 fs ++ encFrame c w.cfg seed f := by
    rw [encFrames_append]
    simp [encFrames, hseed]
  have hlen : (encFrames c w.cfg w.salt1 (fs ++ [f])).length
      = (encFrames c w.cfg w.salt1 fs).length + 24 + (encPayload c w.cfg page).length := by
    have hpage : f.page = page := rfl
    rw [henc, length_append, length_encFrame, hpage]
    omega
  have hcfg : w'.cfg = w.cfg := by rw [hw']; rfl
  have hsalt : w'.salt1 = w.salt1 := by rw [hw']
  have hhead : walHeader w' = walHeader w := by rw [hw']; rfl
  have hsize : w'.pageSize = w.pageSize := by rw [hw']
  refine ⟨⟨by rw [hsize]; exact h.size_lt, ?_, ?_, ?_, ?_⟩, ?_, ?_, ?_, ?_⟩
  · rw [hhead, hcfg, hsalt, henc, hw', ← append_assoc, ← append_assoc]
    exact h2
  · intro hv i hi
    have hv' : w.version = .v2 := by rw [hw'] at hv; exact hv
    have hn : fs.length ≤ w.offsets.length := by
      rcases Nat.eq_zero_or_pos fs.length with h0 | hpos
      · omega
      · have := (List.getElem?_eq_some_iff.mp (h.offsets hv' (fs.length - 1) (by omega))).1
        omega
    rw [hcfg, hsalt, hw']
    simp only [hv', if_true]
    rw [h.nframe, getElem?_writePad 0 hn]
    by_cases hlast : i < fs.length
    · rw [if_pos hlast, take_append_of_le_length (by omega), h.offsets hv' i hlast]
    · have hi' : i = fs.length := by simp at hi; omega
      rw [if_neg hlast, if_pos (by simp; omega), hi']
      simp
  · intro g hg
    rw [hsize]
    rcases mem_append.mp hg with hg | hg
    · exact h.pages g hg
    · rw [mem_singleton.mp hg]; exact hp
  · intro g hg
    rcases mem_append.mp hg with hg | hg
    · exact h.pgnos g hg
    · rw [mem_singleton.mp hg]; exact hlt
  · rw [hw', length_append, ← h.nframe]
    rfl
  · rw [hcfg, hsalt, hlen, hw']
    cases hv : w.version with
    | v1 => simp [encPayload_v1 c (k := w.cfg) hv, packPage, Nat.add_assoc]
    | v2 =>
      rw [encPayload_v2 c (k := w.cfg) hv]
      simp [Wal.cfg]
      omega
  · intro g
    have := MapEntry.append h.map f g
    rw [hw', h.nframe]
    exact this
  · rw [hw']
    have hmap := h.map_length
    simp only
    rw [length_writePad 0 (by simp), length_singleton]
    omega

theorem walAppend_cfg {w : Wal} {rc : Status}
    (hrun : walAppend c w pgno page isCommit dbSize = (rc, w')) :
    w'.cfg = w.cfg ∧ w'.ckptSeq = w.ckptSeq := by
  unfold walAppend at hrun
  simp only at hrun
  split at hrun
  · split at hrun
    · split at hrun <;> (cases hrun; exact ⟨rfl, rfl⟩)
    · cases hrun; exact ⟨rfl, rfl⟩
  · cases hrun; exact ⟨rfl, rfl⟩

/-- Without disk errors an append of a page below `2 ^ 31` succeeds. -/
theorem walAppend_succeeds {w : Wal} (hfail : w.file.fail = []) (hpg : pgno.toNat < 2 ^ 31)
    (page : Bytes) (isCommit : Bool) (dbSize : UInt32) :
    ∃ w', walAppend c w pgno page isCommit dbSize = (.ok, w') ∧ w'.file.fail = [] := by
  unfold walAppend writePayload mapEnsure
  simp only [fileWrite_ok hfail, if_pos hpg]
  cases w.version <;> simp [fileWrite]

theorem walAppend_fail {w : Wal} (hfail : w.file.fail = []) (pgno : UInt32) (page : Bytes)
    (isCommit : Bool) (dbSize : UInt32) :
    (walAppend c w pgno page isCommit dbSize).2.file.fail = [] := by
  unfold walAppend writePayload
  simp only [fileWrite_ok hfail]
  cases w.version <;> cases mapEnsure pgno <;> simp [fileWrite]

/-- Only the file's bytes matter to the frames a log holds. -/
theorem LogRep.withFile (h : LogRep c w fs tail) {file : File} {tail' : Bytes}
    (hb : file.bytes = walHeader w ++ (encFrames c w.cfg w.salt1 fs ++ tail')) :
    LogRep c { w with file := file } fs tail' :=
  ⟨⟨h.size_lt, hb, h.offsets, h.pages, h.pgnos⟩, h.nframe, h.endOff, h.map, h.map_length⟩

/-- The payload writes, successful or not, keep what lies before them. -/
theorem writePayload_keeps {w : Wal} {pre tail : Bytes} (h : w.file.bytes = pre ++ tail)
    (codec : UInt8) (payload : Bytes) :
    ∃ tail', (writePayload w codec payload pre.length).2.bytes = pre ++ tail' := by
  unfold writePayload
  cases w.version with
  | v1 => exact fileWrite_keeps h payload
  | v2 =>
    obtain ⟨tail1, h1⟩ := fileWrite_keeps h (putU32 (UInt32.ofNat payload.length) ++ [codec])
    simp only
    split
    · rename_i file1 hpfx
      have h1 := (fileWrite_ok_inv hpfx).1
      rw [h, writePad_append, ← append_assoc] at h1
      obtain ⟨tail2, h2⟩ := fileWrite_keeps h1 payload
      refine ⟨putU32 (UInt32.ofNat payload.length) ++ [codec] ++ tail2, ?_⟩
      rw [← append_assoc, ← h2]
      simp
    · rename_i rc file1 hne hpfx
      rw [hpfx] at h1
      exact ⟨tail1, h1⟩

/-- **An append with a failing write rewrites the tail only.** -/
theorem LogRep.append_error (h : LogRep c w fs tail)
    (hrun : walAppend c w pgno page isCommit dbSize = (.ioerr, w')) :
    ∃ tail', LogRep c w' fs tail' ∧ w' = { w with file := w'.file } := by
  have hpre : 32 + (encFrames c w.cfg w.salt1 fs).length
      = (walHeader w ++ encFrames c w.cfg w.salt1 fs).length := by simp
  have hbytes : w.file.bytes = walHeader w ++ encFrames c w.cfg w.salt1 fs ++ tail := by
    rw [h.bytes, append_assoc]
  unfold walAppend mapEnsure at hrun
  simp only [h.append_offset] at hrun
  set hdr16 := frameHdr16 w pgno (if isCommit then dbSize else 0) with hhdr16
  set fhdr := hdr16 ++ putU32 (frameChecksum (appendSeed w) hdr16 page).1
    ++ putU32 (frameChecksum (appendSeed w) hdr16 page).2 with hfhdr
  have hlen : fhdr.length = 24 := by simp [hfhdr, hhdr16, frameHdr16]
  split at hrun
  · rename_i file1 hhdr
    have h1 := (fileWrite_ok_inv hhdr).1
    rw [hbytes, hpre, writePad_append, ← append_assoc] at h1
    split at hrun
    · -- all writes succeeded: what fails then is not one of them
      by_cases hpg : pgno.toNat < 2 ^ 31
      · rw [if_pos hpg] at hrun
        cases hrun
      · rw [if_neg hpg] at hrun
        cases hrun
    · -- the header reached the file, the payload did not
      rename_i rc2 file2 hne hpay
      cases hrun
      obtain ⟨tail2, h2⟩ := writePayload_keeps (w := { w with file := file1 }) h1
        (packPage c w.version w.pageSize page).1 (packPage c w.version w.pageSize page).2
      rw [length_append, ← hpre, hlen, hpay, append_assoc,
        append_assoc] at h2
      exact ⟨fhdr ++ tail2, h.withFile h2, rfl⟩
  · rename_i rc1 file1 hne hhdr
    cases hrun
    obtain ⟨tail1, h1⟩ := fileWrite_keeps hbytes fhdr
    rw [← hpre, hhdr] at h1
    exact ⟨tail1, h.withFile (by rw [h1, append_assoc]), rfl⟩

end Tdb
