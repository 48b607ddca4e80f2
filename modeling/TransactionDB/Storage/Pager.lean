import TransactionDB.Lib.Keyed
import TransactionDB.Storage.Header
import TransactionDB.Storage.WalCheckpoint
import TransactionDB.Storage.WalTxn

/-!
# TransactionDB — the pager

`src/storage/tdb_pager.c`: the page cache, the free list and WAL-backed transactions.

The hash buckets are one list of pages, newest first; bucket `b` is its sublist of pages
with number `b` modulo 1024, in the order of the hash chain. A page is named by its
number, which is unique in the cache. Memory allocation does not fail here. The client's
changes to the buffer of a page it holds are `setData`.
-/

namespace Tdb

open Layout

/-! ## Types -/

/-- `tdb_page`. -/
structure Page where
  pgno : UInt32
  data : Bytes
  dirty : Bool
  refs : Nat
  deriving DecidableEq, Repr

/-- `struct pager_sp`: the header and the images of the pages that were dirty. -/
structure PagerSp where
  hdr : DbHdr
  imgs : List (UInt32 × Bytes)

/-- `struct tdb_pager`. The savepoint stack grows at its end. -/
structure Pager where
  file : File
  wal : Wal
  readonly : Bool
  inTxn : Bool
  pageSize : Nat
  hdr : DbHdr
  hdrDirty : Bool
  cache : List Page
  lru : List UInt32
  sps : List PagerSp

/-- `TDB_CACHE_SOFT_MAX`. -/
def cacheSoftMax : Nat := 2048

/-- The length of the `dirty` arrays, `TDB_CACHE_SOFT_MAX + 64`. -/
def dirtyMax : Nat := 2112

/-! ## Cache -/

/-- `cache_lookup`. -/
def cacheLookup (p : Pager) (pgno : UInt32) : Option Page := Keyed.find Page.pgno p.cache pgno

/-- `cache_remove`, of the page with this number. -/
def cacheRemove (p : Pager) (pgno : UInt32) : Pager :=
  { p with cache := p.cache.filter (fun pg => pg.pgno ≠ pgno),
           lru := p.lru.filter (fun g => g ≠ pgno) }

/-- Change the page with this number in place. -/
def cacheModify (p : Pager) (pgno : UInt32) (f : Page → Page) : Pager :=
  { p with cache := p.cache.map (fun pg => if pg.pgno = pgno then f pg else pg) }

/-- All cached pages in the order of a walk over the buckets. -/
def bucketOrder (cache : List Page) : List Page :=
  (List.range 1024).flatMap (fun b => cache.filter (fun pg => pg.pgno.toNat % 1024 = b))

/-- The loop of `cache_trim`, over page numbers from the tail of the LRU list on. -/
def trimLoop (p : Pager) : List UInt32 → Pager
  | [] => p
  | pgno :: rest =>
    if p.cache.length > cacheSoftMax then
      match cacheLookup p pgno with
      | some pg =>
        if pg.refs = 0 ∧ pg.dirty = false then trimLoop (cacheRemove p pgno) rest
        else trimLoop p rest
      | none => trimLoop p rest
    else p

/-- `cache_trim`: evict clean, unpinned pages above the soft cap. -/
def cacheTrim (p : Pager) : Pager := trimLoop p p.lru.reverse

/-- `page_new`, for a page with the given contents and flags. -/
def pageNew (p : Pager) (pg : Page) : Pager :=
  { p with cache := pg :: p.cache, lru := pg.pgno :: p.lru }

/-- `tdb_pager_get`. -/
def pagerGet (c : Codec) (p : Pager) (pgno : UInt32) : Status × Pager × Option Page :=
  if pgno = 0 then (.misuse, p, none)
  else
    match cacheLookup p pgno with
    | some pg =>
      let p := { p with lru := pgno :: p.lru.filter (fun g => g ≠ pgno) }
      let p := cacheModify p pgno (fun pg => { pg with refs := pg.refs + 1 })
      (.ok, p, some { pg with refs := pg.refs + 1 })
    | none =>
      match readPageImage c p.wal p.file pgno with
      | (.ok, data) =>
        let pg : Page := ⟨pgno, data, false, 1⟩
        (.ok, cacheTrim (pageNew p pg), some pg)
      | (rc, _) => (rc, p, none)

/-- The image of a page that `tdb_pager_get` hands out. -/
def pageImage (c : Codec) (p : Pager) (pgno : UInt32) : Bytes :=
  match cacheLookup p pgno with
  | some pg => pg.data
  | none => (readPageImage c p.wal p.file pgno).2

theorem pagerGet_image {c : Codec} {p p' : Pager} {pgno : UInt32} {pg : Page}
    (h : pagerGet c p pgno = (.ok, p', some pg)) : pg.data = pageImage c p pgno := by
  unfold pagerGet at h
  unfold pageImage
  split at h
  · cases h
  · split at h
    · cases h
      rfl
    · split at h
      · rename_i data hread
        cases h
        rw [hread]
      · cases h

/-- `tdb_pager_unref`. -/
def pagerUnref (p : Pager) (pgno : UInt32) : Pager :=
  cacheModify p pgno (fun pg => { pg with refs := pg.refs - 1 })

/-- `tdb_pager_write`: mark a page dirty. -/
def pagerWrite (p : Pager) (pgno : UInt32) : Status × Pager :=
  if p.readonly then (.readonly, p)
  else (.ok, cacheModify p pgno (fun pg => { pg with dirty := true }))

/-- The holder of a page stores `data` into its buffer. -/
def setData (p : Pager) (pgno : UInt32) (data : Bytes) : Pager :=
  cacheModify p pgno (fun pg => { pg with data := data })

/-- Change a page the caller holds: fill its buffer, mark it dirty and release it. -/
def putPage (p : Pager) (pgno : UInt32) (data : Bytes) : Pager :=
  pagerUnref (pagerWrite (setData p pgno data) pgno).2 pgno

/-- Replace the parsed header and note that it changed. -/
def Pager.setHdr (p : Pager) (hdr : DbHdr) : Pager := { p with hdr := hdr, hdrDirty := true }

/-- `tdb_pager_set_max_txnid`. -/
def setMaxTxnid (p : Pager) (v : UInt64) : Pager := p.setHdr { p.hdr with maxTxnid := v }

/-- `tdb_pager_set_schema_cookie`. -/
def setSchemaCookie (p : Pager) (v : UInt32) : Pager := p.setHdr { p.hdr with schemaCookie := v }

/-- `tdb_pager_set_catalog_root`. -/
def setCatalogRoot (p : Pager) (pgno : UInt32) : Pager := p.setHdr { p.hdr with catalogRoot := pgno }

/-! ## Free list

A trunk page holds the next trunk at offset 1, the number of its leaves at 5 and the
leaves from 9 on. -/

def trunkNext (data : Bytes) : UInt32 := getU32 data 1

def trunkCount (data : Bytes) : UInt32 := getU32 data 5

/-- `tdb_get_u32(data + TDB_FL_LEAVES + i * 4u)`. -/
def trunkLeaf (data : Bytes) (i : UInt32) : UInt32 := getU32 data (9 + i * 4).toNat

/-- The first part of `tdb_pager_alloc`: take a page off the free list, 0 if there is none. -/
def allocFree (c : Codec) (p : Pager) : Status × Pager × UInt32 :=
  let head := p.hdr.freelistHead
  if head = 0 then (.ok, p, 0)
  else
    match pagerGet c p head with
    | (.ok, p, some trunk) =>
      let count := trunkCount trunk.data
      if count > 0 then
        let p := putPage p head (splice trunk.data 5 (putU32 (count - 1)))
        (.ok, p.setHdr { p.hdr with freelistCount := p.hdr.freelistCount - 1 },
          trunkLeaf trunk.data (count - 1))
      else
        -- reuse the empty trunk page itself
        let p := pagerUnref p head
        (.ok, p.setHdr { p.hdr with freelistHead := trunkNext trunk.data,
                                    freelistCount := p.hdr.freelistCount - 1 }, head)
    | (rc, p, _) => (rc, p, 0)

/-- The second part: without a free page the database grows by one. -/
def allocGrow (p : Pager) (pgno : UInt32) : Pager × UInt32 :=
  if pgno = 0 then
    (p.setHdr { p.hdr with dbSize := p.hdr.dbSize + 1 }, p.hdr.dbSize + 1)
  else (p, pgno)

/-- `tdb_pager_alloc`. A stale cache entry is dropped, the new page is zeroed and dirty. -/
def pagerAlloc (c : Codec) (p : Pager) : Status × Pager × Option Page :=
  if p.readonly then (.readonly, p, none)
  else
    match allocFree c p with
    | (.ok, p, pgno) =>
      let (p, pgno) := allocGrow p pgno
      let pg : Page := ⟨pgno, zeros p.pageSize, true, 1⟩
      (.ok, pageNew (cacheRemove p pgno) pg, some pg)
    | (rc, p, _) => (rc, p, none)

/-- The bytes of a trunk page without leaves. -/
def emptyTrunk (pageSize : Nat) (next : UInt32) : Bytes :=
  writeFields (zeros pageSize) [(0, [0xFE]), (1, putU32 next), (5, putU32 0)]

/-- Make `pgno` a new trunk page in front of the free list. -/
def freeAsTrunk (c : Codec) (p : Pager) (pgno : UInt32) : Status × Pager :=
  match pagerGet c p pgno with
  | (.ok, p, some _) =>
    let p := putPage p pgno (emptyTrunk p.pageSize p.hdr.freelistHead)
    (.ok, p.setHdr { p.hdr with freelistHead := pgno,
                                freelistCount := p.hdr.freelistCount + 1 })
  | (rc, p, _) => (rc, p)

/-- Leaves that fit a trunk page. -/
def perTrunk (pageSize : Nat) : Nat := (pageSize - 9) / 4

/-- `tdb_pager_free`. -/
def pagerFree (c : Codec) (p : Pager) (pgno : UInt32) : Status × Pager :=
  if p.readonly then (.readonly, p)
  else if pgno = 0 ∨ pgno = 1 then (.misuse, p)
  else
    let head := p.hdr.freelistHead
    if head = 0 then freeAsTrunk c p pgno
    else
      match pagerGet c p head with
      | (.ok, p, some trunk) =>
        let count := trunkCount trunk.data
        if count.toNat < perTrunk p.pageSize then
          let data := splice trunk.data (9 + count * 4).toNat (putU32 pgno)
          let p := putPage p head (splice data 5 (putU32 (count + 1)))
          (.ok, p.setHdr { p.hdr with freelistCount := p.hdr.freelistCount + 1 })
        else freeAsTrunk c (pagerUnref p head) pgno
      | (rc, p, _) => (rc, p)

/-! ## Transactions -/

/-- `tdb_pager_begin`. -/
def pagerBegin (p : Pager) : Status × Pager :=
  if p.readonly then (.readonly, p) else (.ok, { p with inTxn := true })

/-- `flush_header`: write the header into page 1 and mark it dirty. -/
def flushHeader (c : Codec) (p : Pager) : Status × Pager :=
  match pagerGet c p 1 with
  | (.ok, p, some pg) =>
    let p := { p with hdr := { p.hdr with changeCounter := p.hdr.changeCounter + 1 } }
    let p := cacheModify p 1 (fun q => { q with data := hdrSerialize p.hdr pg.data, dirty := true })
    let p := pagerUnref p 1
    (.ok, { p with hdrDirty := false })
  | (rc, p, _) => (rc, p)

/-- The dirty pages a commit or a savepoint rollback collects: in bucket order, as many as
the array holds. -/
def collectDirty (p : Pager) : List Page :=
  ((bucketOrder p.cache).filter (fun pg => pg.dirty)).take dirtyMax

/-- Clear the dirty flag of the given pages. -/
def markClean (p : Pager) (pgnos : List UInt32) : Pager :=
  { p with cache := p.cache.map (fun pg =>
      if pg.pgno ∈ pgnos then { pg with dirty := false } else pg) }

/-- `tdb_pager_checkpoint`. -/
def pagerCheckpoint (c : Codec) (p : Pager) : Status × Pager :=
  if p.readonly then (.ok, p)
  else if p.wal.nframe = 0 then (.ok, p)
  else
    let (rc, wal, file) := walCheckpoint c p.wal p.file
    (rc, { p with wal := wal, file := file })

/-- `tdb_pager_commit` up to the automatic checkpoint. -/
def commitFramesOf (c : Codec) (p : Pager) : Status × Pager :=
  match flushHeader c p with
  | (.ok, p) =>
    let dirty := collectDirty p
    match appendPages c p.wal p.hdr.dbSize (dirty.map (fun pg => (pg.pgno, pg.data))) with
    | (.ok, wal) =>
      match if dirty = [] then (.ok, wal.file) else fileSync wal.file with
      | (.ok, file) =>
        let p := markClean { p with wal := { wal with file := file } }
          (dirty.map (fun pg => pg.pgno))
        (.ok, { p with inTxn := false, sps := [] })
      | (rc, file) => (rc, { p with wal := { wal with file := file } })
    | (rc, wal) => (rc, { p with wal := wal })
  | (rc, p) => (rc, p)

/-- `tdb_pager_commit`. The outcome of the automatic checkpoint is ignored. -/
def pagerCommit (c : Codec) (p : Pager) : Status × Pager :=
  if p.readonly then (.readonly, p)
  else
    match commitFramesOf c p with
    | (.ok, p) => (.ok, if p.wal.nframe > 1000 then (pagerCheckpoint c p).2 else p)
    | (rc, p) => (rc, p)

/-- `tdb_pager_rollback`: drop the dirty pages and reload the header. -/
def pagerRollback (c : Codec) (p : Pager) : Status × Pager :=
  let gone := (p.cache.filter (fun pg => pg.dirty)).map (fun pg => pg.pgno)
  let p := { p with cache := p.cache.filter (fun pg => !pg.dirty),
                    lru := p.lru.filter (fun g => g ∉ gone) }
  let hdr :=
    match readPageImage c p.wal p.file 1 with
    | (.ok, full) => if hasMagic full then hdrParse full else p.hdr
    | _ => p.hdr
  (.ok, { p with hdr := hdr, hdrDirty := false, inTxn := false, sps := [] })

/-! ## Savepoints -/

/-- What a savepoint keeps: the header and the before-images of all dirty pages. -/
def spSnapshot (p : Pager) : PagerSp :=
  ⟨p.hdr, ((bucketOrder p.cache).filter (fun pg => pg.dirty)).map (fun pg => (pg.pgno, pg.data))⟩

/-- `tdb_pager_savepoint`: the new level, or `none` on a read-only pager (`-1`). -/
def pagerSavepoint (p : Pager) : Option Nat × Pager :=
  if p.readonly then (none, p)
  else (some p.sps.length, { p with sps := p.sps ++ [spSnapshot p] })

/-- `tdb_pager_savepoint_release`. -/
def pagerRelease (p : Pager) (level : Nat) : Status × Pager :=
  if level ≥ p.sps.length then (.misuse, p) else (.ok, { p with sps := p.sps.take level })

/-- Revert one collected page: to its image in the savepoint, or out of the cache. -/
def revertPage (imgs : List (UInt32 × Bytes)) (p : Pager) (pgno : UInt32) : Pager :=
  match imgs.find? (fun img => img.1 = pgno) with
  | some img => setData p pgno img.2
  | none => cacheRemove p pgno

/-- `tdb_pager_savepoint_rollback`. -/
def pagerRollbackTo (p : Pager) (level : Nat) : Status × Pager :=
  match p.sps[level]? with
  | none => (.misuse, p)
  | some sp =>
    let dirty := (collectDirty p).map (fun pg => pg.pgno)
    let p := dirty.foldl (revertPage sp.imgs) { p with sps := p.sps.take (level + 1) }
    (.ok, { p with hdr := sp.hdr, hdrDirty := true })

/-! ## Vacuum -/

/-- `evict_above`. -/
def evictAbove (p : Pager) (maxkeep : UInt32) : Pager :=
  let gone := (p.cache.filter (fun pg => pg.pgno > maxkeep ∧ pg.refs = 0)).map (fun pg => pg.pgno)
  { p with cache := p.cache.filter (fun pg => ¬ (pg.pgno > maxkeep ∧ pg.refs = 0)),
           lru := p.lru.filter (fun g => g ∉ gone) }

/-- The leaves of a trunk page. -/
def trunkLeaves (data : Bytes) : List UInt32 :=
  (List.range (trunkCount data).toNat).map (fun i => trunkLeaf data (UInt32.ofNat i))

/-- Walk the trunks and list every free page. A chain without an end never returns; there
are fewer than `2 ^ 32` different trunks, so this is the case when the fuel runs out. -/
def markFree (c : Codec) (p : Pager) : Nat → UInt32 → List UInt32 → Status × Pager × List UInt32
  | 0, _, free => (.hang, p, free)
  | fuel + 1, trunk, free =>
    if trunk = 0 then (.ok, p, free)
    else
      match pagerGet c p trunk with
      | (.ok, p, some tp) =>
        markFree c (pagerUnref p trunk) fuel (trunkNext tp.data)
          (free ++ trunk :: trunkLeaves tp.data)
      | (rc, p, _) => (rc, p, free)

/-- The size left when the free pages at the end are cut off. -/
def shrinkSize (isFree : Nat → Bool) : Nat → Nat
  | 0 => 0
  | n + 1 => if n + 1 ≥ 2 ∧ isFree (n + 1) then shrinkSize isFree n else n + 1

/-- Free the kept pages one by one, up to the first error. -/
def freeAll (c : Codec) (p : Pager) : List UInt32 → Status × Pager
  | [] => (.ok, p)
  | g :: rest =>
    match pagerFree c p g with
    | (.ok, p) => freeAll c p rest
    | (rc, p) => (rc, p)

/-- The part of `tdb_pager_vacuum` behind the walk: rebuild the list, commit, checkpoint and
truncate. -/
def vacuumShrink (c : Codec) (p : Pager) (kept : List UInt32) (newsize : UInt32) :
    Status × Pager :=
  let p := p.setHdr { p.hdr with freelistHead := 0, freelistCount := 0 }
  match freeAll c p kept with
  | (.ok, p) =>
    match pagerCommit c (p.setHdr { p.hdr with dbSize := newsize }) with
    | (.ok, p) =>
      match pagerCheckpoint c p with
      | (.ok, p) =>
        let p := evictAbove p newsize
        let (rc, file) := fileTruncate p.file (newsize.toNat * p.pageSize)
        (rc, { p with file := file })
      | (rc, p) => (rc, p)
    | (rc, p) => (rc, p)
  | (rc, p) => (rc, (pagerRollback c p).2)

/-- `tdb_pager_vacuum`. -/
def pagerVacuum (c : Codec) (p : Pager) : Status × Pager :=
  if p.readonly then (.readonly, p)
  else if p.inTxn then (.misuse, p)
  else if p.hdr.dbSize ≤ 1 ∨ p.hdr.freelistCount = 0 then (.ok, p)
  else
    match pagerCheckpoint c p with
    | (.ok, p) =>
      let p := (pagerBegin p).2
      let dbsize := p.hdr.dbSize
      match markFree c p (2 ^ 32) p.hdr.freelistHead [] with
      | (.ok, p, free) =>
        let isFree := fun n : Nat => decide (UInt32.ofNat n ∈ free)
        let newsize := shrinkSize isFree dbsize.toNat
        if newsize = dbsize.toNat then (.ok, (pagerRollback c p).2)
        else
          let kept := ((List.range (newsize + 1)).filter (fun n => 2 ≤ n ∧ isFree n)).map UInt32.ofNat
          vacuumShrink c p kept (UInt32.ofNat newsize)
      | (.hang, p, _) => (.hang, p)
      | (rc, p, _) => (rc, (pagerRollback c p).2)
    | (rc, p) => (rc, p)

/-! ## Opening -/

/-- The header of a brand-new database: page 1 only. -/
def newHdr (pageSize : Nat) : DbHdr where
  pageSize := UInt32.ofNat pageSize
  changeCounter := 0
  dbSize := 1
  freelistHead := 0
  freelistCount := 0
  catalogRoot := 0
  schemaCookie := 0
  textEncoding := 1
  maxTxnid := 0
  reservedPerPage := 0

/-- The header in the main file, if there is one. -/
def fileHdr (file : File) : Option DbHdr :=
  let probe := fileRead file 100 0
  if 100 ≤ file.bytes.length ∧ hasMagic probe then some (hdrParse probe) else none

/-- The page size without a header in the main file: that of the log, or the default. -/
def walPageSize (walfile : File) : Nat :=
  let wh := fileRead walfile 32 0
  if 32 ≤ walfile.bytes.length ∧ getU32 wh 0 = walMagic then (getU32 wh 8).toNat else 4096

/-- The page size a database is opened with. -/
def openPageSize (file walfile : File) : Nat :=
  match fileHdr file with
  | some hdr => hdr.pageSize.toNat
  | none => walPageSize walfile

/-- The header in a log, if there is one. -/
def walHdr (c : Codec) (wal : Wal) : Option DbHdr :=
  match walReadPage c wal 1 with
  | (.ok, some full) => if hasMagic full then some (hdrParse full) else none
  | _ => none

/-- A pager over opened files, with an empty cache. -/
def newPager (file : File) (wal : Wal) (readonly : Bool) (hdr : DbHdr) : Pager where
  file := file
  wal := wal
  readonly := readonly
  inTxn := false
  pageSize := wal.pageSize
  hdr := hdr
  hdrDirty := false
  cache := []
  lru := []
  sps := []

/-- `tdb_pager_open` over the two files: the header of the main file counts, the log's only
where the main file has none; of the log's header only the database size is taken over. -/
def pagerOpen (c : Codec) (file walfile : File) (readonly : Bool) : Status × Pager :=
  let pageSize := openPageSize file walfile
  match walOpen c walfile pageSize with
  | (.ok, wal) =>
    match (fileHdr file).or (walHdr c wal) with
    | some hdr =>
      let hdr := if wal.dbSize ≠ 0 then { hdr with dbSize := wal.dbSize } else hdr
      (.ok, newPager file wal readonly hdr)
    | none =>
      let p := newPager file wal readonly (newHdr pageSize)
      -- persist the initial header
      if readonly then (.ok, p) else pagerCommit c (pagerBegin p).2
  | (rc, wal) => (rc, newPager file wal readonly (newHdr pageSize))

/-- `tdb_pager_close`: the main file and the log as it leaves them. -/
def pagerClose (c : Codec) (p : Pager) : File × File :=
  let p := if p.readonly then p else (pagerCheckpoint c p).2
  (p.file, p.wal.file)

end Tdb
