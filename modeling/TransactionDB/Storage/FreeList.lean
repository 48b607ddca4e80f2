import TransactionDB.Storage.PagerOps

/-!
# TransactionDB — trunk pages

The free list is a chain of trunk pages, each with an array of leaves. This module says
what the writes of allocation and freeing do to the fields of a trunk, and what an
allocation does in each of its three cases.
-/

namespace Tdb

open Layout

/-! ## Fields of a trunk page -/

section Fields

variable {pageSize : Nat} {data : Bytes}

theorem trunkNext_emptyTrunk (h : 512 ≤ pageSize) (next : UInt32) :
    trunkNext (emptyTrunk pageSize next) = next := by
  have hfield := slice_writeFields (emptyTrunk_fit h next)
    (show (1, putU32 next) ∈ _ by simp)
  rw [length_putU32] at hfield
  exact getU32_of_slice hfield

theorem trunkCount_emptyTrunk (h : 512 ≤ pageSize) (next : UInt32) :
    trunkCount (emptyTrunk pageSize next) = 0 := by
  have hfield := slice_writeFields (emptyTrunk_fit h next)
    (show (5, putU32 0) ∈ _ by simp)
  rw [length_putU32] at hfield
  exact getU32_of_slice hfield

end Fields

/-! ## The three cases of an allocation -/

namespace Store

variable (s : Store) (pageSize : Nat)

theorem alloc_grow (hhead : s.hdr.freelistHead = 0) :
    s.alloc pageSize = (s.hdr.dbSize + 1,
      (s.setHdr { s.hdr with dbSize := s.hdr.dbSize + 1 }).write (s.hdr.dbSize + 1)
        (zeros pageSize)) := by
  simp [alloc, allocFree, allocGrow, hhead]

/-- The first trunk has no leaves left and is taken itself. -/
theorem alloc_trunk (hhead : s.hdr.freelistHead ≠ 0)
    (hcount : trunkCount (s.read s.hdr.freelistHead) = 0) :
    s.alloc pageSize = (s.hdr.freelistHead,
      (s.setHdr { s.hdr with freelistHead := trunkNext (s.read s.hdr.freelistHead),
                             freelistCount := s.hdr.freelistCount - 1 }).write
        s.hdr.freelistHead (zeros pageSize)) := by
  simp [alloc, allocFree, allocGrow, hhead, hcount]

end Store

end Tdb
