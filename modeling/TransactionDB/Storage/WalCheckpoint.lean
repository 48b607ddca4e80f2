import TransactionDB.Storage.WalRep

/-!
# TransactionDB — checkpoints

`tdb_wal_checkpoint` copies the latest image of each page into the main file and then
resets the log. Readers look into the log first and into the main file otherwise
(`read_page_image`).

* `dbPage` / `writePages`: pages of the main file.
* `checkpointLoop_spec`: the copying loop touches only pages that are in the log, and where
  it succeeds it has written all of them.
* `Effect` / `checkpointEffects`: the writes of a checkpoint in their order, so that a crash
  can stop between two of them. A checkpoint on a disk without errors is all of them.
-/

namespace Tdb

open Layout List

variable {g : UInt32} {page : Bytes} {db : File} {rc : Status} {w' : Wal}

/-! ## Pages of the main file -/

/-- `(uint64_t)(pgno - 1) * page_size`, the subtraction in 32 bits. -/
def dbOffset (pageSize : Nat) (pgno : UInt32) : Nat := (pgno - 1).toNat * pageSize

def dbPage (db : Bytes) (pageSize : Nat) (pgno : UInt32) : Bytes :=
  readPad 0 db (dbOffset pageSize pgno) pageSize

/-- `read_page_image`: the page from the log, or else from the main file. -/
def readPageImage (c : Codec) (w : Wal) (db : File) (pgno : UInt32) : Status × Bytes :=
  match walReadPage c w pgno with
  | (.ok, some page) => (.ok, page)
  | (.ok, none) => (.ok, fileRead db w.pageSize (dbOffset w.pageSize pgno))
  | (rc, _) => (rc, [])

/-- The image of a page in a log over a main file. -/
def imageOf (fs : List Frame) (db : Bytes) (pageSize : Nat) (pgno : UInt32) : Bytes :=
  (lastImage fs pgno).getD (dbPage db pageSize pgno)

theorem LogRep.readImage {c : Codec} (hc : c.Inverts) {w : Wal} {fs : List Frame}
    {tail : Bytes} (h : LogRep c w fs tail) (db : File) (pgno : UInt32) :
    readPageImage c w db pgno = (.ok, imageOf fs db.bytes w.pageSize pgno) := by
  unfold readPageImage imageOf
  rw [h.readPage hc pgno]
  cases lastImage fs pgno <;> rfl

@[simp] theorem length_dbPage (db : Bytes) (pageSize : Nat) (pgno : UInt32) :
    (dbPage db pageSize pgno).length = pageSize :=
  length_readPad 0 _ _ _

/-- Different pages do not overlap. -/
theorem dbOffset_disjoint (pageSize : Nat) {g' : UInt32} (h : g ≠ g') :
    dbOffset pageSize g + pageSize ≤ dbOffset pageSize g' ∨
      dbOffset pageSize g' + pageSize ≤ dbOffset pageSize g := by
  have hne : (g - 1).toNat ≠ (g' - 1).toNat := by
    intro heq
    exact h ((UInt32.sub_left_inj 1).mp (UInt32.toNat_inj.mp heq))
  unfold dbOffset
  rcases Nat.lt_or_gt_of_ne hne with hlt | hlt
  · left
    calc (g - 1).toNat * pageSize + pageSize = ((g - 1).toNat + 1) * pageSize := by ring
      _ ≤ (g' - 1).toNat * pageSize := Nat.mul_le_mul_right _ hlt
  · right
    calc (g' - 1).toNat * pageSize + pageSize = ((g' - 1).toNat + 1) * pageSize := by ring
      _ ≤ (g - 1).toNat * pageSize := Nat.mul_le_mul_right _ hlt

/-- A write to another page, or a part of one, leaves a page as it is. -/
theorem dbPage_writePad_ne {db : Bytes} {pageSize : Nat} {g' : UInt32} (h : g' ≠ g)
    (hp : page.length ≤ pageSize) :
    dbPage (writePad 0 db (dbOffset pageSize g') page) pageSize g = dbPage db pageSize g := by
  apply readPad_writePad_of_disjoint
  rcases dbOffset_disjoint pageSize h with h | h
  · right; omega
  · left; omega

theorem dbPage_writePad_self {db : Bytes} {pageSize : Nat} (g : UInt32)
    (hp : page.length = pageSize) :
    dbPage (writePad 0 db (dbOffset pageSize g) page) pageSize g = page := by
  subst hp
  exact readPad_writePad_self 0 _ _ _

/-- Pages written to the main file one after the other. -/
def writePages (pageSize : Nat) (db : Bytes) (ps : List (UInt32 × Bytes)) : Bytes :=
  ps.foldl (fun db p => writePad 0 db (dbOffset pageSize p.1) p.2) db

section Pages

variable {pageSize : Nat} {ps : List (UInt32 × Bytes)}

theorem dbPage_writePages_of_not_mem (hp : ∀ p ∈ ps, p.2.length = pageSize) (hg : ∀ p ∈ ps, p.1 ≠ g)
    (db : Bytes) :
    dbPage (writePages pageSize db ps) pageSize g = dbPage db pageSize g := by
  induction ps generalizing db with
  | nil => rfl
  | cons p ps ih =>
    rw [writePages, foldl_cons]
    exact (ih (forall_mem_cons.mp hp).2
        (forall_mem_cons.mp hg).2 _).trans
      (dbPage_writePad_ne (hg p mem_cons_self) (le_of_eq (hp p mem_cons_self)))

/-- A written page reads back, where all writes of it agree. -/
theorem dbPage_writePages_of_mem (img : UInt32 → Option Bytes)
    (hp : ∀ p ∈ ps, p.2.length = pageSize) (himg : ∀ p ∈ ps, img p.1 = some p.2)
    (hg : (g, page) ∈ ps) (db : Bytes) : dbPage (writePages pageSize db ps) pageSize g = page := by
  induction ps generalizing db with
  | nil => simp at hg
  | cons p ps ih =>
    rw [writePages, foldl_cons]
    have hp' := (forall_mem_cons.mp hp).2
    have himg' := (forall_mem_cons.mp himg).2
    by_cases hlater : ∃ page', (g, page') ∈ ps
    · obtain ⟨page', hmem⟩ := hlater
      have heq : page' = page :=
        Option.some.inj ((himg' _ hmem).symm.trans (himg _ hg))
      exact ih hp' himg' (heq ▸ hmem) _
    · rcases mem_cons.mp hg with rfl | hmem
      · exact (dbPage_writePages_of_not_mem hp'
          (fun q hq hqg => hlater ⟨q.2, by rw [← hqg]; exact hq⟩) _).trans
          (dbPage_writePad_self g (hp _ mem_cons_self))
      · exact absurd ⟨page, hmem⟩ hlater

/-- Writing pages never shortens the file, and each of them lies in it then. -/
theorem length_writePages (hpos : 0 < pageSize) (hp : ∀ p ∈ ps, p.2.length = pageSize) (db : Bytes) :
    db.length ≤ (writePages pageSize db ps).length ∧
      ∀ p ∈ ps, dbOffset pageSize p.1 + pageSize ≤ (writePages pageSize db ps).length := by
  induction ps generalizing db with
  | nil => exact ⟨le_refl _, by simp⟩
  | cons p ps ih =>
    have hlen := hp p mem_cons_self
    have hone : (writePad 0 db (dbOffset pageSize p.1) p.2).length
        = max db.length (dbOffset pageSize p.1 + pageSize) := by
      rw [length_writePad 0 (by rintro h; rw [h] at hlen; simp at hlen; omega), hlen]
    obtain ⟨hle, hall⟩ := ih (forall_mem_cons.mp hp).2
      (writePad 0 db (dbOffset pageSize p.1) p.2)
    rw [writePages, foldl_cons]
    change _ ≤ (writePages pageSize _ ps).length ∧ ∀ q ∈ p :: ps, _ ≤ (writePages pageSize _ ps).length
    refine ⟨by omega, fun q hq => ?_⟩
    rcases mem_cons.mp hq with rfl | hq
    · omega
    · exact hall q hq

end Pages

/-! ## The copying loop -/

/-- The page writes of the copying loop, in order, where the log is readable. -/
def pageWrites (c : Codec) (w : Wal) (ps : List Nat) : List (UInt32 × Bytes) :=
  ps.filterMap (fun p =>
    if w.map.getD p 0 = 0 ∨ w.map.getD p 0 > w.nframe then none
    else (walReadPage c w (UInt32.ofNat p)).2.map (fun page => (UInt32.ofNat p, page)))

section Loop

variable {c : Codec} {w : Wal} {fs : List Frame} {tail : Bytes}

/-- Pages of a log have the log's page size. -/
theorem length_lastImage {n : Nat} (hp : ∀ f ∈ fs, f.page.length = n)
    (h : lastImage fs g = some page) : page.length = n := by
  induction fs using List.reverseRecOn with
  | nil => simp [lastImage] at h
  | append_singleton fs f ih =>
    rw [lastImage_append] at h
    split at h
    · cases h
      exact hp f (by simp)
    · exact ih (forall_mem_append.mp hp).1 h

section

variable (h : LogRep c w fs tail)

include h

/-- A slot of the map is in use exactly for the pages of the log. -/
theorem LogRep.slot_iff (g : UInt32) :
    (w.map.getD g.toNat 0 = 0 ∨ w.map.getD g.toNat 0 > w.nframe) ↔ lastImage fs g = none := by
  rcases h.map g with ⟨hslot, hnone⟩ | ⟨i, f, hslot, hi, -, himg⟩
  · rw [hslot, hnone]
    simp
  · obtain ⟨hlt, -⟩ := List.getElem?_eq_some_iff.mp hi
    rw [hslot, himg, h.nframe]
    simp
    omega

/-- The loop's body for one page number, in terms of the frames. -/
theorem LogRep.checkpoint_step (hc : c.Inverts) {p : Nat} (hp : p < 2 ^ 32) (rest : List Nat)
    (db : File) :
    checkpointLoop c w (p :: rest) db =
      match lastImage fs (UInt32.ofNat p) with
      | none => checkpointLoop c w rest db
      | some page =>
        match fileWrite db page (dbOffset w.pageSize (UInt32.ofNat p)) with
        | (.ok, db) => checkpointLoop c w rest db
        | (rc, db) => (rc, db) := by
  have hnat : (UInt32.ofNat p).toNat = p := by
    rw [UInt32.toNat_ofNat', Nat.mod_eq_of_lt hp]
  have hslot := h.slot_iff (UInt32.ofNat p)
  rw [hnat] at hslot
  rw [checkpointLoop]
  cases himg : lastImage fs (UInt32.ofNat p) with
  | none => simp only [if_pos (hslot.mpr himg)]
  | some page =>
    have hne : ¬ (w.map.getD p 0 = 0 ∨ w.map.getD p 0 > w.nframe) := by
      rw [hslot, himg]; simp
    simp only [if_neg hne, h.readPage hc, himg]
    rfl

theorem LogRep.range_lt : ∀ p ∈ List.range w.map.length, p < 2 ^ 32 := fun p hp =>
  lt_of_lt_of_le (mem_range.mp hp) (le_trans h.map_length (by norm_num))

theorem LogRep.mem_pageWrites (hc : c.Inverts) : (g, page) ∈ pageWrites c w (List.range w.map.length) ↔
    g.toNat < w.map.length ∧ lastImage fs g = some page := by
  unfold pageWrites
  rw [mem_filterMap]
  constructor
  · rintro ⟨p, hp, heq⟩
    split at heq
    · cases heq
    · rw [h.readPage hc, Option.map_eq_some_iff] at heq
      obtain ⟨page', himg, heq⟩ := heq
      cases heq
      exact ⟨by rw [UInt32.toNat_ofNat', Nat.mod_eq_of_lt (h.range_lt p hp)]; exact mem_range.mp hp, himg⟩
  · rintro ⟨hlt, himg⟩
    have hslot := h.slot_iff g
    refine ⟨g.toNat, mem_range.mpr hlt, ?_⟩
    rw [if_neg (by rw [hslot, himg]; simp), UInt32.ofNat_toNat, h.readPage hc, himg]
    rfl

/-- Every page of the log is visited by the loop. -/
theorem LogRep.lt_map_length (himg : lastImage fs g = some page) :
    g.toNat < w.map.length := by
  by_contra hge
  have hslot := h.slot_iff g
  have hzero : w.map.getD g.toNat 0 = 0 := by
    rw [getD_eq_getElem?_getD, getElem?_eq_none (by omega)]
    rfl
  rw [himg] at hslot
  exact absurd (hslot.mp (Or.inl hzero)) (by simp)

/-- **The copying loop**, whatever the disk does: it touches no page that is not in the log,
and where it succeeds it has done all its writes. -/
theorem LogRep.checkpointLoop_spec (hc : c.Inverts) (ps : List Nat) :
    ∀ {db db' : File} {rc : Status}, (∀ p ∈ ps, p < 2 ^ 32) →
      checkpointLoop c w ps db = (rc, db') →
      (∀ g, lastImage fs g = none → dbPage db'.bytes w.pageSize g = dbPage db.bytes w.pageSize g) ∧
      (rc = .ok → db'.bytes = writePages w.pageSize db.bytes (pageWrites c w ps)) := by
  induction ps with
  | nil =>
    intro db db' rc _ hrun
    cases hrun
    exact ⟨fun _ _ => rfl, fun _ => rfl⟩
  | cons p rest ih =>
    intro db db' rc hlt hrun
    have hlt' : ∀ q ∈ rest, q < 2 ^ 32 := (forall_mem_cons.mp hlt).2
    have hp := hlt p mem_cons_self
    have hnat : (UInt32.ofNat p).toNat = p := by
      rw [UInt32.toNat_ofNat', Nat.mod_eq_of_lt hp]
    have hslot := h.slot_iff (UInt32.ofNat p)
    rw [hnat] at hslot
    rw [h.checkpoint_step hc hp] at hrun
    cases himg : lastImage fs (UInt32.ofNat p) with
    | none =>
      rw [himg] at hrun
      obtain ⟨hkeep, hall⟩ := ih hlt' hrun
      have hw : pageWrites c w (p :: rest) = pageWrites c w rest := by
        rw [pageWrites, filterMap_cons, if_pos (hslot.mpr himg)]
        rfl
      exact ⟨hkeep, fun hrc => by rw [hw]; exact hall hrc⟩
    | some page =>
      have hlen : page.length = w.pageSize := length_lastImage h.pages himg
      have hother : ∀ g, lastImage fs g = none → UInt32.ofNat p ≠ g := by
        rintro g hnone rfl
        rw [himg] at hnone
        cases hnone
      rw [himg] at hrun
      simp only at hrun
      split at hrun
      · rename_i db1 hwrite
        obtain ⟨hkeep, hall⟩ := ih hlt' hrun
        have hb := (fileWrite_ok_inv hwrite).1
        have hw : pageWrites c w (p :: rest)
            = (UInt32.ofNat p, page) :: pageWrites c w rest := by
          rw [pageWrites, filterMap_cons,
            if_neg (by rw [hslot, himg]; simp), h.readPage hc, himg]
          rfl
        refine ⟨fun g hg => ?_, fun hrc => ?_⟩
        · rw [hkeep g hg, hb, dbPage_writePad_ne (hother g hg) (by omega)]
        · rw [hall hrc, hb, hw]
          rfl
      · rename_i rc1 db1 hne hwrite
        cases hrun
        refine ⟨fun g hg => ?_, fun hrc => absurd hrc (fun hrc => hne (by rw [hrc]))⟩
        have hb := fileWrite_bytes hwrite
        obtain ⟨m, hb⟩ := hb
        rw [hb, dbPage_writePad_ne (hother g hg) (by simp; omega)]

/-- Copying pages of the log into the main file does not change the image of any page. -/
theorem LogRep.imageOf_writePages (hc : c.Inverts) {ps : List (UInt32 × Bytes)}
    (hps : ∀ p ∈ ps, p ∈ pageWrites c w (List.range w.map.length)) (db : Bytes) (g : UInt32) :
    imageOf fs (writePages w.pageSize db ps) w.pageSize g = imageOf fs db w.pageSize g := by
  have himg : ∀ p ∈ ps, lastImage fs p.1 = some p.2 := fun p hp =>
    ((h.mem_pageWrites hc).mp (hps p hp)).2
  unfold imageOf
  cases hg : lastImage fs g with
  | some page => rfl
  | none =>
    refine dbPage_writePages_of_not_mem (fun p hp => length_lastImage h.pages (himg p hp)) ?_ db
    rintro p hp rfl
    rw [himg p hp] at hg
    cases hg

end

/-- Writing the header into an empty log file. -/
theorem writeHeader_empty {w : Wal} (hempty : w.file.bytes = []) (h : writeHeader w = (rc, w')) :
    ∃ file, w' = { w with file := file } ∧ ((rc = .ok ∧ file.bytes = walHeader w) ∨
      (rc ≠ .ok ∧ ∃ m, file.bytes = (walHeader w).take m)) := by
  unfold writeHeader at h
  cases hwrite : fileWrite w.file (walHeader w) 0 with
  | mk rc1 file =>
    rw [hwrite] at h
    cases h
    refine ⟨file, rfl, ?_⟩
    by_cases hrc : rc = .ok
    · subst hrc
      exact Or.inl ⟨rfl, by rw [(fileWrite_ok_inv hwrite).1, hempty, writePad_nil]⟩
    · obtain ⟨m, hb⟩ := fileWrite_bytes hwrite
      exact Or.inr ⟨hrc, m, by rw [hb, hempty, writePad_nil]⟩

/-- All pages of the log are in the main file. -/
def Copied (fs : List Frame) (db : Bytes) (pageSize : Nat) : Prop :=
  ∀ g page, lastImage fs g = some page → dbPage db pageSize g = page

theorem LogRep.copied_writePages (hc : c.Inverts) (h : LogRep c w fs tail) (db : Bytes) :
    Copied fs (writePages w.pageSize db (pageWrites c w (List.range w.map.length))) w.pageSize := by
  intro g page himg
  refine dbPage_writePages_of_mem (lastImage fs) (fun p hp => ?_) (fun p hp => ?_)
    ((h.mem_pageWrites hc).mpr ⟨h.lt_map_length himg, himg⟩) db
  · exact length_lastImage h.pages ((h.mem_pageWrites hc).mp hp).2
  · exact ((h.mem_pageWrites hc).mp hp).2

/-- Once all pages are copied, the main file alone has the images. -/
theorem Copied.imageOf {fs : List Frame} {db db' : Bytes} {pageSize : Nat}
    (hcopied : Copied fs db' pageSize)
    (hkeep : ∀ g, lastImage fs g = none → dbPage db' pageSize g = dbPage db pageSize g)
    (g : UInt32) : dbPage db' pageSize g = imageOf fs db pageSize g := by
  unfold Tdb.imageOf
  cases hg : lastImage fs g with
  | some page => exact hcopied g page hg
  | none => exact hkeep g hg

/-- What truncating the log can do: its file is then as it was, or cut to a part of the
header. -/
theorem truncateLog_spec {w : Wal} (hrun : truncateLog w = (rc, w')) :
    (rc ≠ .ok ∧ ∃ file, w' = { w with file := file } ∧
      (file.bytes = w.file.bytes ∨ ∃ m, file.bytes = (walHeader w).take m)) ∨
    ∃ file, file.bytes = walHeader w ∧ w' = { w with file := file, endOff := 32 } := by
  unfold truncateLog at hrun
  split at hrun
  · rename_i file htrunc
    have hempty : file.bytes = [] := by
      rcases fileTruncate_bytes htrunc with ⟨-, hb⟩ | ⟨hne, -⟩
      · exact eq_nil_of_length_eq_zero (by rw [hb, length_readPad])
      · exact absurd rfl hne
    have hsame : walHeader { w with file := file } = walHeader w := walHeader_file w file
    split at hrun
    · -- the header is written: only the last sync can still fail
      rename_i w1 hhdr
      obtain ⟨file1, rfl, ⟨-, hb⟩ | ⟨hne, -⟩⟩ := writeHeader_empty hempty hhdr
      · cases hrun
        exact Or.inr ⟨(fileSync file1).2, (fileSync_bytes rfl).trans (hb.trans hsame), rfl⟩
      · exact absurd rfl hne
    · rename_i rc1 w1 hne hhdr
      obtain ⟨file1, rfl, ⟨hok, -⟩ | ⟨hrc, hb⟩⟩ := writeHeader_empty hempty hhdr
      · exact absurd hok hne
      · cases hrun
        rw [hsame] at hb
        exact Or.inl ⟨hrc, file1, rfl, Or.inr hb⟩
  · rename_i rc1 file hne htrunc
    cases hrun
    rcases fileTruncate_bytes htrunc with ⟨hok, -⟩ | ⟨hrc, hb⟩
    · exact absurd hok hne
    · exact Or.inl ⟨hrc, file, rfl, Or.inl hb⟩

/-- Truncated, a log without frames is one whose file holds only the header. -/
theorem truncateLog_rep {w : Wal} (hps : w.pageSize < 2 ^ 32) (hn : w.nframe = 0)
    (hmap : w.map = []) (hrun : truncateLog w = (.ok, w')) :
    LogRep c w' [] [] ∧ w'.cfg = w.cfg ∧ w'.dbSize = w.dbSize := by
  obtain ⟨hne, -⟩ | ⟨file, hbytes, rfl⟩ := truncateLog_spec hrun
  · exact absurd rfl hne
  · refine ⟨LogRep.empty hps ?_ hn hmap rfl, rfl, rfl⟩
    rw [hbytes]
    exact walHeader_congr rfl rfl

/-- On a disk without errors the loop succeeds. -/
theorem LogRep.checkpointLoop_ok (hc : c.Inverts) (h : LogRep c w fs tail) (ps : List Nat) :
    ∀ {db : File}, (∀ p ∈ ps, p < 2 ^ 32) → db.fail = [] →
      checkpointLoop c w ps db = (.ok, ⟨writePages w.pageSize db.bytes (pageWrites c w ps), []⟩) := by
  intro db hlt hfail
  have hok : ∀ (ps : List Nat) (db : File), (∀ p ∈ ps, p < 2 ^ 32) → db.fail = [] →
      ∃ db', checkpointLoop c w ps db = (.ok, db') ∧ db'.fail = [] := by
    intro ps
    induction ps with
    | nil => exact fun db _ hfail => ⟨db, rfl, hfail⟩
    | cons p rest ih =>
      intro db hlt hfail
      have hlt' : ∀ q ∈ rest, q < 2 ^ 32 := (forall_mem_cons.mp hlt).2
      rw [h.checkpoint_step hc (hlt p mem_cons_self)]
      cases lastImage fs (UInt32.ofNat p) with
      | none => exact ih db hlt' hfail
      | some page =>
        simp only [fileWrite_ok hfail]
        exact ih _ hlt' rfl
  obtain ⟨db', hrun, hfail'⟩ := hok ps db hlt hfail
  have hbytes := (h.checkpointLoop_spec hc ps hlt hrun).2 rfl
  rw [hrun, ← hbytes, ← hfail']

theorem truncateLog_ok {w : Wal} (hfail : w.file.fail = []) :
    truncateLog w = (.ok, { w with file := ⟨walHeader w, []⟩, endOff := 32 }) := by
  have hcut : readPad 0 w.file.bytes 0 0 = [] :=
    eq_nil_of_length_eq_zero (length_readPad 0 _ _ _)
  unfold truncateLog writeHeader
  simp only [fileTruncate_ok hfail, hcut, walHeader_file, fileWrite_ok, writePad_nil, fileSync_ok]

section

variable (hc : c.Inverts) (h : LogRep c w fs tail)

include hc h

/-- **What a checkpoint can do**, on any disk. Pages that are not in the log are never
touched, and the log is reset only once all pages are copied. -/
theorem LogRep.checkpoint_spec {db' : File} (hrun : walCheckpoint c w db = (rc, w', db')) :
    (∀ g, lastImage fs g = none →
      dbPage db'.bytes w.pageSize g = dbPage db.bytes w.pageSize g) ∧
    ((rc ≠ .ok ∧ w' = w) ∨
      (Copied fs db'.bytes w.pageSize ∧ truncateLog (walReset w) = (rc, w'))) := by
  unfold walCheckpoint at hrun
  split at hrun
  · rename_i db1 hloop
    obtain ⟨hkeep, hall⟩ := h.checkpointLoop_spec hc _ h.range_lt hloop
    have hcopied : Copied fs db1.bytes w.pageSize := by
      rw [hall rfl]
      exact h.copied_writePages hc db.bytes
    split at hrun
    · rename_i db2 hsync
      rw [← fileSync_bytes hsync] at hcopied hkeep
      cases hrun
      exact ⟨hkeep, Or.inr ⟨hcopied, rfl⟩⟩
    · rename_i rc1 db2 hne hsync
      cases hrun
      rw [← fileSync_bytes hsync] at hkeep
      exact ⟨hkeep, Or.inl ⟨hne, rfl⟩⟩
  · rename_i rc1 db1 hne hloop
    cases hrun
    exact ⟨(h.checkpointLoop_spec hc _ h.range_lt hloop).1, Or.inl ⟨hne, rfl⟩⟩

/-- **On a disk without errors a checkpoint succeeds**: all images are in the main file then,
and the log is empty. -/
theorem LogRep.checkpoint_ok (hfail : w.file.fail = []) (hdb : db.fail = []) :
    ∃ w' db', walCheckpoint c w db = (.ok, w', db') ∧ LogRep c w' [] [] ∧
      w'.pageSize = w.pageSize ∧ w'.file.fail = [] ∧ db'.fail = [] ∧
      ∀ g, dbPage db'.bytes w.pageSize g = imageOf fs db.bytes w.pageSize g := by
  obtain ⟨r, hr⟩ : ∃ r, r = walReset w := ⟨_, rfl⟩
  have hcut := truncateLog_ok (w := r) (by rw [hr, walReset_file]; exact hfail)
  have hrun : walCheckpoint c w db
      = (.ok, { r with file := ⟨walHeader r, []⟩, endOff := 32 },
          ⟨writePages w.pageSize db.bytes (pageWrites c w (List.range w.map.length)), []⟩) := by
    unfold walCheckpoint
    rw [h.checkpointLoop_ok hc _ h.range_lt hdb]
    simp only [fileSync_ok, ← hr, hcut]
  obtain ⟨hkeep, ⟨hne, -⟩ | ⟨hcopied, -⟩⟩ := h.checkpoint_spec hc hrun
  · exact absurd rfl hne
  have hps : r.pageSize < 2 ^ 32 := by
    rw [hr, walReset_pageSize]
    exact h.size_lt
  obtain ⟨hrep, -, -⟩ := truncateLog_rep (c := c) hps (by rw [hr, walReset_nframe])
    (by rw [hr, walReset_map]) hcut
  have hsize : r.pageSize = w.pageSize := by rw [hr, walReset_pageSize]
  clear hr
  exact ⟨_, _, hrun, hrep, hsize, rfl, rfl, hcopied.imageOf hkeep⟩

/-- A page in the log lies in the main file after a checkpoint. -/
theorem LogRep.checkpoint_length (hpos : 0 < w.pageSize) {db' : File} (hdb : db.fail = [])
    (hrun : walCheckpoint c w db = (rc, w', db')) :
    db.bytes.length ≤ db'.bytes.length ∧ ∀ g page, lastImage fs g = some page →
      dbOffset w.pageSize g + w.pageSize ≤ db'.bytes.length := by
  have hbytes : db'.bytes
      = writePages w.pageSize db.bytes (pageWrites c w (List.range w.map.length)) := by
    unfold walCheckpoint at hrun
    rw [h.checkpointLoop_ok hc _ h.range_lt hdb] at hrun
    simp only [fileSync_ok] at hrun
    cases hrun
    rfl
  obtain ⟨hle, hall⟩ := length_writePages hpos (fun p hp =>
    length_lastImage h.pages ((h.mem_pageWrites hc).mp hp).2) db.bytes
  rw [hbytes]
  exact ⟨hle, fun g page himg =>
    hall _ ((h.mem_pageWrites hc).mpr ⟨h.lt_map_length himg, himg⟩)⟩

end

end Loop

/-! ## The effects of a checkpoint, one by one -/

/-- A step of a checkpoint on the disk. -/
inductive Effect where
  | writeDb (pgno : UInt32) (page : Bytes)
  | syncDb
  | truncateWal
  | writeWalHeader (hdr : Bytes)
  | syncWal

/-- The bytes of the main file and of the log file. -/
structure Disk where
  db : Bytes
  wal : Bytes

def Effect.apply (pageSize : Nat) (d : Disk) : Effect → Disk
  | .writeDb pgno page => { d with db := writePad 0 d.db (dbOffset pageSize pgno) page }
  | .truncateWal => { d with wal := [] }
  | .writeWalHeader hdr => { d with wal := writePad 0 d.wal 0 hdr }
  | .syncDb | .syncWal => d

def runEffects (pageSize : Nat) (d : Disk) (es : List Effect) : Disk :=
  es.foldl (Effect.apply pageSize) d

/-- What `tdb_wal_checkpoint` does to the disk, in order. -/
def checkpointEffects (c : Codec) (w : Wal) : List Effect :=
  (pageWrites c w (List.range w.map.length)).map (fun p => .writeDb p.1 p.2) ++
    [.syncDb, .truncateWal, .writeWalHeader (walHeader (walReset w)), .syncWal]

/-- The disk where the machine stops after the first `n` effects of a checkpoint. -/
def crashedCheckpoint (c : Codec) (w : Wal) (db : File) (n : Nat) : Disk :=
  runEffects w.pageSize ⟨db.bytes, w.file.bytes⟩ ((checkpointEffects c w).take n)

theorem runEffects_append (pageSize : Nat) (d : Disk) (es fs : List Effect) :
    runEffects pageSize d (es ++ fs) = runEffects pageSize (runEffects pageSize d es) fs :=
  foldl_append

theorem runEffects_writes (pageSize : Nat) (d : Disk) (ps : List (UInt32 × Bytes)) :
    runEffects pageSize d (ps.map (fun p => .writeDb p.1 p.2))
      = { d with db := writePages pageSize d.db ps } := by
  induction ps generalizing d with
  | nil => rfl
  | cons p ps ih => exact ih _

/-- The stages of a crashed checkpoint: some pages are copied and the log is whole, or all
are copied and the log is empty or new. -/
theorem crashedCheckpoint_cases (c : Codec) (w : Wal) (db : File) (n : Nat) :
    let ps := pageWrites c w (List.range w.map.length)
    crashedCheckpoint c w db n
      = ⟨writePages w.pageSize db.bytes (ps.take n), w.file.bytes⟩ ∨
    crashedCheckpoint c w db n = ⟨writePages w.pageSize db.bytes ps, []⟩ ∨
    crashedCheckpoint c w db n
      = ⟨writePages w.pageSize db.bytes ps, walHeader (walReset w)⟩ := by
  intro ps
  unfold crashedCheckpoint checkpointEffects
  rw [take_append, runEffects_append, ← map_take, runEffects_writes, length_map]
  change runEffects _ ⟨writePages w.pageSize db.bytes (ps.take n), w.file.bytes⟩ _ = _ ∨
    runEffects _ ⟨writePages w.pageSize db.bytes (ps.take n), w.file.bytes⟩ _ = _ ∨
    runEffects _ ⟨writePages w.pageSize db.bytes (ps.take n), w.file.bytes⟩ _ = _
  -- how many of the last four effects are done
  rcases hk : n - ps.length with _ | _ | k
  · exact Or.inl rfl
  · exact Or.inl rfl
  · have hall : ps.take n = ps := take_of_length_le (by omega)
    rw [hall]
    rcases k with _ | _ | k
    · exact Or.inr (Or.inl rfl)
    · refine Or.inr (Or.inr ?_)
      simp [runEffects, Effect.apply, writePad_nil]
    · refine Or.inr (Or.inr ?_)
      simp [runEffects, Effect.apply, writePad_nil]

/-- On a disk without errors a checkpoint is all of its effects. -/
theorem LogRep.checkpoint_effects {c : Codec} (hc : c.Inverts) {w : Wal} {fs : List Frame}
    {tail : Bytes} (h : LogRep c w fs tail) (hdb : db.fail = []) (hwal : w.file.fail = []) :
    ∃ w', walCheckpoint c w db
        = (.ok, w', ⟨(runEffects w.pageSize ⟨db.bytes, w.file.bytes⟩ (checkpointEffects c w)).db, []⟩) ∧
      w'.file
        = ⟨(runEffects w.pageSize ⟨db.bytes, w.file.bytes⟩ (checkpointEffects c w)).wal, []⟩ := by
  have hloop := h.checkpointLoop_ok hc _ h.range_lt hdb
  have htrunc := truncateLog_ok (w := walReset w) (by rw [walReset_file]; exact hwal)
  have hdisk : runEffects w.pageSize ⟨db.bytes, w.file.bytes⟩ (checkpointEffects c w)
      = ⟨writePages w.pageSize db.bytes (pageWrites c w (List.range w.map.length)),
          walHeader (walReset w)⟩ := by
    rw [checkpointEffects, runEffects_append, runEffects_writes]
    simp [runEffects, Effect.apply, writePad_nil]
  rw [hdisk]
  unfold walCheckpoint
  simp only [hloop, fileSync_ok, htrunc]
  exact ⟨_, rfl, rfl⟩

end Tdb
