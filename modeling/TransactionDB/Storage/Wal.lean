import TransactionDB.Storage.File

/-!
# TransactionDB — the write-ahead log

`src/storage/tdb_wal.c`. Modified page images are appended to the log as checksummed
frames; the last frame of a commit carries the database size, which marks it as a commit
point. The page map sends a page number to one plus the index of its latest frame.

Layout of a frame: 24 header bytes (page number, database size, two salts, two checksums),
then the payload. Version 1 stores the page itself. Version 2 stores a physical size and a
codec id on five bytes, then the page, compressed where that is shorter.

The compression library is outside the repository, so `Codec` is a parameter. The arrays
`map` and `offsets` are lists that read as zero past their end; their spare capacity is not
modelled. Offsets and sizes (`uint64_t`, `size_t`) are natural numbers.
-/

namespace Tdb

open Layout

/-! ## Codec -/

/-- `tdb_compress.c`. `active` says that a codec is linked in (`tdb_compress_codec() !=
TDB_COMP_NONE`); `decompress src n` is given the capacity of its output buffer. -/
structure Codec where
  active : Bool
  compress : Bytes → Option Bytes
  decompress : Bytes → Nat → Option Bytes

/-- Decompression inverts compression, at the size of the original. -/
def Codec.Inverts (c : Codec) : Prop :=
  ∀ page packed, c.compress page = some packed → c.decompress packed page.length = some page

/-- The build without a compression library: an identity codec. -/
def Codec.identity : Codec where
  active := false
  compress page := some page
  decompress src n := if n < src.length then none else some src

theorem Codec.identity_inverts : Codec.identity.Inverts := by
  intro page packed h
  cases h
  simp [Codec.identity]

/-- A linked-in codec that never shrinks a page. -/
def Codec.stored : Codec where
  active := true
  compress _ := none
  decompress _ _ := none

theorem Codec.stored_inverts : Codec.stored.Inverts := by
  intro page packed h
  cases h

/-- `(uint8_t)tdb_compress_codec()`, the id stored with a compressed payload. -/
def Codec.id (c : Codec) : UInt8 := if c.active then 1 else 0

/-! ## The log object -/

inductive WalVersion where
  | v1 | v2
  deriving DecidableEq, Repr

def WalVersion.code : WalVersion → UInt32
  | .v1 => 1
  | .v2 => 2

def WalVersion.ofCode (v : UInt32) : Option WalVersion :=
  if v = 1 then some .v1 else if v = 2 then some .v2 else none

@[simp] theorem WalVersion.ofCode_code (v : WalVersion) :
    WalVersion.ofCode v.code = some v := by
  cases v <;> rfl

structure Wal where
  file : File
  pageSize : Nat
  version : WalVersion
  salt1 : UInt32
  salt2 : UInt32
  ckptSeq : UInt32
  nframe : Nat
  dbSize : UInt32
  map : List Nat
  offsets : List Nat
  endOff : Nat

/-- What the layout of a frame depends on besides the frame. -/
structure LogCfg where
  version : WalVersion
  pageSize : Nat
  salt1 : UInt32
  salt2 : UInt32

def Wal.cfg (w : Wal) : LogCfg := ⟨w.version, w.pageSize, w.salt1, w.salt2⟩

theorem Wal.pageSize_of_cfg {w w' : Wal} (h : w'.cfg = w.cfg) : w'.pageSize = w.pageSize :=
  congrArg LogCfg.pageSize h

theorem Wal.version_of_cfg {w w' : Wal} (h : w'.cfg = w.cfg) : w'.version = w.version :=
  congrArg LogCfg.version h

/-- Bytes of a version 1 frame. -/
def Wal.frameStride (w : Wal) : Nat := 24 + w.pageSize

/-- `frame_offset`: where frame `idx` starts in the log file. -/
def frameOffset (w : Wal) (idx : Nat) : Nat :=
  if w.version = .v2 ∧ w.offsets ≠ [] then w.offsets.getD idx 0
  else 32 + idx * w.frameStride

/-- `frame_checksum`: the rolling checksum, continued from `seed`, and a standalone one,
over the first 16 header bytes and the page. -/
def frameChecksum (seed : UInt32) (hdr16 page : Bytes) : UInt32 × UInt32 :=
  (crc32c (crc32c seed hdr16) page, crc32c (crc32c 0 hdr16) page)

/-- `map_ensure`. The capacity doubles in 32 bits until it exceeds the page number; from
page `2 ^ 31` on it wraps to zero and the loop never ends. -/
def mapEnsure (pgno : UInt32) : Status :=
  if pgno.toNat < 2 ^ 31 then .ok else .hang

/-! ## Header -/

def walMagic : UInt32 := 0x7764424B

/-- The header fields before the checksums, at their offsets. -/
def walHeaderFields (w : Wal) : List (Nat × Bytes) :=
  [(0, putU32 walMagic), (4, putU32 w.version.code), (8, putU32 (UInt32.ofNat w.pageSize)),
   (12, putU32 w.ckptSeq), (16, putU32 w.salt1), (20, putU32 w.salt2)]

/-- The 32 bytes `write_header` stores at the start of the log. -/
def walHeader (w : Wal) : Bytes :=
  let hdr := writeFields (zeros 32) (walHeaderFields w)
  writeFields hdr
    [(24, putU32 (crc32c w.salt1 (hdr.take 24))), (28, putU32 (crc32c 0 (hdr.take 24)))]

/-- `write_header`. -/
def writeHeader (w : Wal) : Status × Wal :=
  let (rc, file) := fileWrite w.file (walHeader w) 0
  (rc, { w with file := file })

/-! ## Recovery -/

/-- What one turn of the recovery loop reads: the frame and its length in the file. -/
structure FrameRead where
  pgno : UInt32
  dbSize : UInt32
  page : Bytes
  crc1 : UInt32
  len : Nat
  deriving DecidableEq, Repr

/-- The page of the frame that starts the bytes `bs` (the file from the loop's offset on)
and the frame's length; `none` where the loop breaks because the frame is cut short or
does not decompress to a page. -/
def framePayload (c : Codec) (k : LogCfg) (bs : Bytes) : Option (Bytes × Nat) :=
  match k.version with
  | .v1 =>
    if 24 + k.pageSize > bs.length then none
    else some (slice bs 24 k.pageSize, 24 + k.pageSize)
  | .v2 =>
    if 24 + 5 > bs.length then none
    else
      let phys := (getU32 bs 24).toNat
      if phys > k.pageSize ∨ 29 + phys > bs.length then none
      else
        let scratch := slice bs 29 phys
        if bs.getD 28 0 ≠ 0 then
          match c.decompress scratch k.pageSize with
          | none => none
          | some page => if page.length = k.pageSize then some (page, 29 + phys) else none
        else some (scratch ++ zeros (k.pageSize - phys), 29 + phys)

/-- One turn of the loop in `recover`: the frame at the start of `bs`, if it is complete,
carries the log's salts and continues the rolling checksum. -/
def frameAt (c : Codec) (k : LogCfg) (bs : Bytes) (rolling : UInt32) : Option FrameRead :=
  if 24 ≤ bs.length then
    match framePayload c k bs with
    | none => none
    | some (page, len) =>
      if getU32 bs 8 = k.salt1 ∧ getU32 bs 12 = k.salt2 then
        let crc := frameChecksum rolling (slice bs 0 16) page
        if crc.1 = getU32 bs 16 ∧ crc.2 = getU32 bs 20 then
          some ⟨getU32 bs 0, getU32 bs 4, page, crc.1, len⟩
        else none
      else none
  else none

/-- The variables of the recovery loop. -/
structure Scan where
  idx : Nat
  off : Nat
  committed : Nat
  committedDbsize : UInt32
  committedEnd : Nat
  rolling : UInt32
  offsets : List Nat

/-- The loop's bookkeeping for an accepted frame; one with a database size commits. -/
def Scan.accept (version : WalVersion) (s : Scan) (fr : FrameRead) : Scan :=
  { idx := s.idx + 1
    off := s.off + fr.len
    committed := if fr.dbSize ≠ 0 then s.idx + 1 else s.committed
    committedDbsize := if fr.dbSize ≠ 0 then fr.dbSize else s.committedDbsize
    committedEnd := if fr.dbSize ≠ 0 then s.off + fr.len else s.committedEnd
    rolling := fr.crc1
    offsets := if version = .v2 then writePad 0 s.offsets s.idx [s.off] else s.offsets }

/-- The loop of `recover`. A frame has at least 24 bytes, so the file's length is fuel
enough. -/
def scanLoop (c : Codec) (w : Wal) : Nat → Scan → Scan
  | 0, s => s
  | fuel + 1, s =>
    match frameAt c w.cfg (w.file.bytes.drop s.off) s.rolling with
    | none => s
    | some fr => scanLoop c w fuel (s.accept w.version fr)

/-- The second loop of `recover`: index the headers of `n` frames from frame `i` on. -/
def rebuildMap (w : Wal) : Nat → Nat → List Nat → Status × List Nat
  | 0, _, map => (.ok, map)
  | n + 1, i, map =>
    let pgno := getU32 (fileRead w.file 24 (frameOffset w i)) 0
    match mapEnsure pgno with
    | .ok => rebuildMap w n (i + 1) (writePad 0 map pgno.toNat [i + 1])
    | rc => (rc, map)

/-- `recover` once the header is accepted: validate frames, then index the committed ones. -/
def recoverFrames (c : Codec) (w : Wal) : Status × Wal :=
  let s := scanLoop c w w.file.bytes.length ⟨0, 32, 0, 0, 32, w.salt1, w.offsets⟩
  let w := { w with offsets := s.offsets }
  match rebuildMap w s.committed 0 [] with
  | (.ok, map) => (.ok, { w with map, nframe := s.committed, dbSize := s.committedDbsize,
                                 endOff := s.committedEnd })
  | (rc, map) => (rc, { w with map })

/-- `recover`. A log without a readable header of this page size is ignored. -/
def recover (c : Codec) (w : Wal) : Status × Wal :=
  if w.file.bytes.length < 32 then (.ok, w)
  else
    let hdr := fileRead w.file 32 0
    if getU32 hdr 0 ≠ walMagic then (.ok, w)
    else
      match WalVersion.ofCode (getU32 hdr 4) with
      | none => (.ok, w)
      | some version =>
        if (getU32 hdr 8).toNat ≠ w.pageSize then (.ok, w)
        else recoverFrames c { w with version, salt1 := getU32 hdr 16, salt2 := getU32 hdr 20,
                                      ckptSeq := getU32 hdr 12 }

/-- The bytes of a `uint32_t` in memory, low byte first. -/
def memU32 (v : UInt32) : Bytes := (putU32 v).reverse

/-- The log object before recovery. -/
def walInit (c : Codec) (file : File) (pageSize : Nat) : Wal where
  file := file
  pageSize := pageSize
  version := if c.active then .v2 else .v1
  salt1 := (fnv1a (memU32 (UInt32.ofNat pageSize))).toUInt32 ^^^ 0x9E3779B9
  salt2 := 0x1234567
  ckptSeq := 0
  nframe := 0
  dbSize := 0
  map := []
  offsets := []
  endOff := 32

/-- `tdb_wal_open`: recover the log, and give it a fresh header where it holds no
committed frame. -/
def walOpen (c : Codec) (file : File) (pageSize : Nat) : Status × Wal :=
  match recover c (walInit c file pageSize) with
  | (.ok, w) =>
    if w.nframe = 0 then
      match writeHeader w with
      | (.ok, w) => (.ok, { w with endOff := 32 })
      | (rc, w) => (rc, w)
    else (.ok, w)
  | (rc, w) => (rc, w)

/-! ## Reading and appending -/

/-- `tdb_wal_read_page`: the latest image of a page, `none` where the log has none
(`*found == 0`). -/
def walReadPage (c : Codec) (w : Wal) (pgno : UInt32) : Status × Option Bytes :=
  let slot := w.map.getD pgno.toNat 0
  if slot = 0 then (.ok, none)
  else if slot - 1 ≥ w.nframe then (.ok, none)
  else
    let off := frameOffset w (slot - 1) + 24
    match w.version with
    | .v1 => (.ok, some (fileRead w.file w.pageSize off))
    | .v2 =>
      let pfx := fileRead w.file 5 off
      let phys := (getU32 pfx 0).toNat
      let buf := fileRead w.file phys (off + 5)
      if pfx.getD 4 0 = 0 then (.ok, some (buf ++ zeros (w.pageSize - phys)))
      else
        match c.decompress buf w.pageSize with
        | none => (.error, none)
        | some page => if page.length = w.pageSize then (.ok, some page) else (.corrupt, none)

/-- The first 16 bytes of a frame header. -/
def frameHdr16 (w : Wal) (pgno dbSize : UInt32) : Bytes :=
  putU32 pgno ++ putU32 dbSize ++ putU32 w.salt1 ++ putU32 w.salt2

/-- The rolling checksum a new frame continues, read back from the last frame's header. -/
def appendSeed (w : Wal) : UInt32 :=
  if w.nframe = 0 then w.salt1
  else getU32 (fileRead w.file 24 (frameOffset w (w.nframe - 1))) 16

/-- The codec id and payload a page is stored with: compressed only where that is shorter. -/
def packPage (c : Codec) (version : WalVersion) (pageSize : Nat) (page : Bytes) :
    UInt8 × Bytes :=
  if version = .v2 ∧ c.active then
    match c.compress page with
    | some packed => if packed.length < pageSize then (c.id, packed) else (0, page)
    | none => (0, page)
  else (0, page)

/-- The payload writes of `tdb_wal_append`: in version 2 the size and codec id first. -/
def writePayload (w : Wal) (codec : UInt8) (payload : Bytes) (off : Nat) : Status × File :=
  match w.version with
  | .v1 => fileWrite w.file payload off
  | .v2 =>
    match fileWrite w.file (putU32 (UInt32.ofNat payload.length) ++ [codec]) off with
    | (.ok, file) => fileWrite file payload (off + 5)
    | (rc, file) => (rc, file)

/-- `tdb_wal_append`. The counters and the page map move only once all writes are done. -/
def walAppend (c : Codec) (w : Wal) (pgno : UInt32) (page : Bytes) (isCommit : Bool)
    (dbSize : UInt32) : Status × Wal :=
  let idx := w.nframe
  let hdr16 := frameHdr16 w pgno (if isCommit then dbSize else 0)
  let crc := frameChecksum (appendSeed w) hdr16 page
  let fhdr := hdr16 ++ putU32 crc.1 ++ putU32 crc.2
  let off := if w.version = .v2 then w.endOff else frameOffset w idx
  match fileWrite w.file fhdr off with
  | (.ok, file) =>
    let w := { w with file := file }
    let (codec, payload) := packPage c w.version w.pageSize page
    match writePayload w codec payload (off + 24) with
    | (.ok, file) =>
      let pfx := if w.version = .v2 then 5 else 0
      let w := { w with
        file := file
        offsets := if w.version = .v2 then writePad 0 w.offsets idx [off] else w.offsets
        endOff := off + 24 + pfx + payload.length }
      match mapEnsure pgno with
      | .ok => (.ok, { w with map := writePad 0 w.map pgno.toNat [idx + 1], nframe := idx + 1,
                              dbSize := if isCommit then dbSize else w.dbSize })
      | rc => (rc, w)
    | (rc, file) => (rc, { w with file := file })
  | (rc, file) => (rc, { w with file := file })

/-! ## Checkpoint -/

/-- The copying loop of `tdb_wal_checkpoint`, over the page numbers still to visit. -/
def checkpointLoop (c : Codec) (w : Wal) : List Nat → File → Status × File
  | [], db => (.ok, db)
  | p :: rest, db =>
    let slot := w.map.getD p 0
    if slot = 0 ∨ slot > w.nframe then checkpointLoop c w rest db
    else
      match walReadPage c w (UInt32.ofNat p) with
      | (.ok, some page) =>
        match fileWrite db page ((UInt32.ofNat p - 1).toNat * w.pageSize) with
        | (.ok, db) => checkpointLoop c w rest db
        | (rc, db) => (rc, db)
      | (.ok, none) => checkpointLoop c w rest db
      | (rc, _) => (rc, db)

/-- The log object after a checkpoint has reset it: new salts, no frames. The database
size is kept. -/
def walReset (w : Wal) : Wal :=
  { w with ckptSeq := w.ckptSeq + 1, salt1 := w.salt1 + 0x9E3779B9,
           salt2 := w.salt2 ^^^ 0xA5A5A5A5, nframe := 0, map := [] }

@[simp] theorem walReset_pageSize (w : Wal) : (walReset w).pageSize = w.pageSize := by
  cases w; rfl

@[simp] theorem walReset_file (w : Wal) : (walReset w).file = w.file := by
  cases w; rfl

@[simp] theorem walReset_nframe (w : Wal) : (walReset w).nframe = 0 := by
  cases w; rfl

@[simp] theorem walReset_map (w : Wal) : (walReset w).map = [] := by
  cases w; rfl

/-- The end of `tdb_wal_checkpoint`: truncate the log file, write the new header, sync. -/
def truncateLog (w : Wal) : Status × Wal :=
  match fileTruncate w.file 0 with
  | (.ok, file) =>
    match writeHeader { w with file := file } with
    | (.ok, w) =>
      let (rc, file) := fileSync w.file
      (rc, { w with file := file, endOff := 32 })
    | (rc, w) => (rc, w)
  | (rc, file) => (rc, { w with file := file })

/-- `tdb_wal_checkpoint`. -/
def walCheckpoint (c : Codec) (w : Wal) (db : File) : Status × Wal × File :=
  match checkpointLoop c w (List.range w.map.length) db with
  | (.ok, db) =>
    match fileSync db with
    | (.ok, db) =>
      let (rc, w) := truncateLog (walReset w)
      (rc, w, db)
    | (rc, db) => (rc, w, db)
  | (rc, db) => (rc, w, db)

end Tdb
