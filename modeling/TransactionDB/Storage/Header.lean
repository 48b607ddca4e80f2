import TransactionDB.Common.Util

/-!
# TransactionDB — the database header

The first 100 bytes of page 1 (`tdb_format.h`, `hdr_parse` and `hdr_serialize` of
`src/storage/tdb_pager.c`). A table of fields is written over zeroed bytes; parsing what
was serialized gives the header back.
-/

namespace Tdb

open Layout

/-- `tdb_dbhdr`. -/
structure DbHdr where
  pageSize : UInt32
  changeCounter : UInt32
  dbSize : UInt32
  freelistHead : UInt32
  freelistCount : UInt32
  catalogRoot : UInt32
  schemaCookie : UInt32
  textEncoding : UInt32
  maxTxnid : UInt64
  reservedPerPage : UInt32
  deriving DecidableEq, Repr

/-- `TDB_MAGIC` with its terminating zero: what `memcmp` compares. -/
def magic : Bytes := [84, 114, 97, 110, 115, 97, 99, 116, 105, 111, 110, 68, 66, 0]

/-- `memcmp(b, TDB_MAGIC, sizeof(TDB_MAGIC)) == 0`. -/
def hasMagic (b : Bytes) : Bool := slice b 0 14 = magic

/-- The page size field: 0 encodes 64 KiB. -/
def pageSizeOf (v : UInt16) : UInt32 := if v = 0 then 65536 else v.toUInt32

/-- The 16 bits a page size is stored in. -/
def pageSizeCode (pageSize : UInt32) : UInt16 := if pageSize ≥ 65536 then 0 else pageSize.toUInt16

/-- `hdr_parse`. -/
def hdrParse (b : Bytes) : DbHdr where
  pageSize := pageSizeOf (getU16 b 16)
  changeCounter := getU32 b 24
  dbSize := getU32 b 28
  freelistHead := getU32 b 32
  freelistCount := getU32 b 36
  catalogRoot := getU32 b 40
  schemaCookie := getU32 b 44
  textEncoding := getU32 b 48
  maxTxnid := getU64 b 52
  reservedPerPage := getU32 b 60

/-- The fields before the checksum, at their offsets. -/
def hdrFields (h : DbHdr) : List (Nat × Bytes) :=
  [(0, magic), (16, putU16 (pageSizeCode h.pageSize)), (18, [1]), (19, [1]), (20, putU32 1),
   (24, putU32 h.changeCounter), (28, putU32 h.dbSize), (32, putU32 h.freelistHead),
   (36, putU32 h.freelistCount), (40, putU32 h.catalogRoot), (44, putU32 h.schemaCookie),
   (48, putU32 h.textEncoding), (52, putU64 h.maxTxnid), (60, putU32 h.reservedPerPage)]

/-- The 100 header bytes: the fields, then the CRC32C of the first 96 bytes. -/
def hdrBytes (h : DbHdr) : Bytes :=
  let b := writeFields (zeros 100) (hdrFields h)
  writeFields b [(96, putU32 (crc32c 0 (b.take 96)))]

/-- `hdr_serialize` into the page buffer `b`. -/
def hdrSerialize (h : DbHdr) (b : Bytes) : Bytes := hdrBytes h ++ b.drop 100

/-! ## Round trip -/

theorem hdrFields_fit (h : DbHdr) : FieldsFit 100 (hdrFields h) := by
  constructor
  · simp [hdrFields, magic]
  · simp [hdrFields, FieldsDisjoint, magic]

theorem hdrCrc_fit (v : UInt32) : FieldsFit 100 [(96, putU32 v)] := by
  constructor
  · simp
  · simp

theorem length_hdrFields (h : DbHdr) : (writeFields (zeros 100) (hdrFields h)).length = 100 := by
  rw [length_writeFields (by simpa using hdrFields_fit h), length_zeros]

@[simp] theorem length_hdrBytes (h : DbHdr) : (hdrBytes h).length = 100 := by
  unfold hdrBytes
  rw [length_writeFields (by rw [length_hdrFields]; exact hdrCrc_fit _), length_hdrFields]

theorem length_hdrSerialize {h : DbHdr} {b : Bytes} (hb : 100 ≤ b.length) :
    (hdrSerialize h b).length = b.length := by
  simp [hdrSerialize]
  omega

/-- Each field reads back from a serialized page. -/
theorem slice_hdrSerialize {h : DbHdr} (b : Bytes) {off : Nat} {v : Bytes}
    (hmem : (off, v) ∈ hdrFields h) (hoff : off + v.length ≤ 96) :
    slice (hdrSerialize h b) off v.length = v := by
  have hfit : FieldsFit (zeros 100).length (hdrFields h) := by
    simpa using hdrFields_fit h
  rw [hdrSerialize, slice_append_left (by simp; omega), hdrBytes,
    slice_writeFields_of_disjoint (by rw [length_hdrFields]; exact hdrCrc_fit _)]
  · exact slice_writeFields hfit hmem
  · intro f hf
    rw [List.mem_singleton.mp hf]
    exact Or.inl hoff

theorem hasMagic_hdrSerialize (h : DbHdr) (b : Bytes) : hasMagic (hdrSerialize h b) = true := by
  have hfield := slice_hdrSerialize b (show (0, magic) ∈ hdrFields h from by simp [hdrFields])
    (by decide)
  rw [show magic.length = 14 from rfl] at hfield
  simpa [hasMagic] using hfield

theorem pageSizeOf_code {ps : UInt32} (hlo : 0 < ps.toNat) (hhi : ps.toNat ≤ 65536) :
    pageSizeOf (pageSizeCode ps) = ps := by
  unfold pageSizeOf pageSizeCode
  by_cases h : ps ≥ 65536
  · have hge : 65536 ≤ ps.toNat := by simpa using UInt32.le_iff_toNat_le.mp h
    rw [if_pos h, if_pos rfl]
    exact UInt32.toNat_inj.mp (by simp; omega)
  · have hlt : ps.toNat < 65536 := by
      rw [ge_iff_le, UInt32.le_iff_toNat_le] at h
      simpa using h
    have hval : ps.toUInt16.toNat = ps.toNat := by
      rw [UInt32.toNat_toUInt16]
      exact Nat.mod_eq_of_lt hlt
    have hne : ps.toUInt16 ≠ 0 := by
      intro h0
      rw [h0] at hval
      simp at hval
      omega
    rw [if_neg h, if_neg hne]
    exact UInt32.toNat_inj.mp (by rw [UInt16.toNat_toUInt32]; exact hval)

/-- **Parsing a serialized header gives it back.** -/
theorem hdrParse_hdrSerialize {h : DbHdr} (b : Bytes) (hlo : 0 < h.pageSize.toNat)
    (hhi : h.pageSize.toNat ≤ 65536) : hdrParse (hdrSerialize h b) = h := by
  have hu32 : ∀ (off : Nat) (v : UInt32), (off, putU32 v) ∈ hdrFields h → off + 4 ≤ 96 →
      getU32 (hdrSerialize h b) off = v := by
    intro off v hmem hoff
    apply getU32_of_slice
    simpa using slice_hdrSerialize b hmem (by simpa using hoff)
  have hps : getU16 (hdrSerialize h b) 16 = pageSizeCode h.pageSize := by
    apply getU16_of_slice
    simpa using slice_hdrSerialize b (h := h) (v := putU16 (pageSizeCode h.pageSize))
      (by simp [hdrFields]) (by simp)
  have htx : getU64 (hdrSerialize h b) 52 = h.maxTxnid := by
    apply getU64_of_slice
    simpa using slice_hdrSerialize b (h := h) (v := putU64 h.maxTxnid) (by simp [hdrFields])
      (by simp)
  unfold hdrParse
  rw [hps, pageSizeOf_code hlo hhi, htx]
  rw [hu32 24 h.changeCounter (by simp [hdrFields]) (by omega),
    hu32 28 h.dbSize (by simp [hdrFields]) (by omega),
    hu32 32 h.freelistHead (by simp [hdrFields]) (by omega),
    hu32 36 h.freelistCount (by simp [hdrFields]) (by omega),
    hu32 40 h.catalogRoot (by simp [hdrFields]) (by omega),
    hu32 44 h.schemaCookie (by simp [hdrFields]) (by omega),
    hu32 48 h.textEncoding (by simp [hdrFields]) (by omega),
    hu32 60 h.reservedPerPage (by simp [hdrFields]) (by omega)]

/-! ## The first 100 bytes are enough -/

theorem hasMagic_take (b : Bytes) : hasMagic (b.take 100) = hasMagic b := by
  have : slice (b.take 100) 0 14 = slice b 0 14 := by simp [slice, List.take_take]
  simp only [hasMagic, this]

theorem hdrParse_take (b : Bytes) : hdrParse (b.take 100) = hdrParse b := by
  have hslice : ∀ off n, off + n ≤ 100 → slice (b.take 100) off n = slice b off n := by
    intro off n hn
    simp only [slice, List.drop_take, List.take_take]
    rw [Nat.min_eq_left (by omega)]
  unfold hdrParse getU64
  simp (disch := decide) only [getU16, getU32, hslice]

end Tdb
