import TransactionDB.Storage.Pager

/-!
# TransactionDB — what the pager is for

A `Store` is the pager without cache, log and files: the committed images, an overlay of
the pages changed since, and the header. A page reads as its overlay entry, or else as its
committed image. The operations below say what the pager's operations mean; the pager
refines them, so that page replacement, the log and the main file can be forgotten.
-/

namespace Tdb

open Layout

structure Store where
  dirty : UInt32 → Option Bytes
  base : UInt32 → Bytes
  hdr : DbHdr

namespace Store

/-- The image `tdb_pager_get` returns. -/
def read (s : Store) (g : UInt32) : Bytes := (s.dirty g).getD (s.base g)

def write (s : Store) (g : UInt32) (data : Bytes) : Store :=
  { s with dirty := Function.update s.dirty g (some data) }

def setHdr (s : Store) (hdr : DbHdr) : Store := { s with hdr := hdr }

/-- Take a page off the free list; 0 if it is empty. -/
def allocFree (s : Store) : UInt32 × Store :=
  let head := s.hdr.freelistHead
  let count := trunkCount (s.read head)
  if head = 0 then (0, s)
  else if count > 0 then
    (trunkLeaf (s.read head) (count - 1),
      (s.write head (splice (s.read head) 5 (putU32 (count - 1)))).setHdr
        { s.hdr with freelistCount := s.hdr.freelistCount - 1 })
  else
    (head, s.setHdr { s.hdr with freelistHead := trunkNext (s.read head),
                                 freelistCount := s.hdr.freelistCount - 1 })

/-- Without a free page the database grows by one. -/
def allocGrow (s : Store) (g : UInt32) : UInt32 × Store :=
  if g = 0 then (s.hdr.dbSize + 1, s.setHdr { s.hdr with dbSize := s.hdr.dbSize + 1 }) else (g, s)

/-- Allocate a zeroed page. -/
def alloc (s : Store) (pageSize : Nat) : UInt32 × Store :=
  let a := s.allocFree.2.allocGrow s.allocFree.1
  (a.1, a.2.write a.1 (zeros pageSize))

def freeAsTrunk (s : Store) (pageSize : Nat) (g : UInt32) : Store :=
  (s.write g (emptyTrunk pageSize s.hdr.freelistHead)).setHdr
    { s.hdr with freelistHead := g, freelistCount := s.hdr.freelistCount + 1 }

/-- Put a page on the free list: as a leaf of the first trunk, or as a new trunk. -/
def free (s : Store) (pageSize : Nat) (g : UInt32) : Store :=
  let head := s.hdr.freelistHead
  let count := trunkCount (s.read head)
  if head = 0 then s.freeAsTrunk pageSize g
  else if count.toNat < perTrunk pageSize then
    let data := splice (s.read head) (9 + count * 4).toNat (putU32 g)
    (s.write head (splice data 5 (putU32 (count + 1)))).setHdr
      { s.hdr with freelistCount := s.hdr.freelistCount + 1 }
  else s.freeAsTrunk pageSize g

/-- Write the header into page 1. -/
def flush (s : Store) : Store :=
  let hdr := { s.hdr with changeCounter := s.hdr.changeCounter + 1 }
  (s.write 1 (hdrSerialize hdr (s.read 1))).setHdr hdr

/-- The header a rollback reloads. -/
def committedHdr (s : Store) : DbHdr := if hasMagic (s.base 1) then hdrParse (s.base 1) else s.hdr

def rollback (s : Store) : Store := { s with dirty := fun _ => none, hdr := s.committedHdr }

theorem read_write_ne (s : Store) {g g' : UInt32} (h : g' ≠ g) (data : Bytes) :
    (s.write g data).read g' = s.read g' := by
  simp [read, write, Function.update_of_ne h]

theorem read_of_clean {s : Store} {g : UInt32} (h : s.dirty g = none) : s.read g = s.base g := by
  rw [read, h]
  rfl

@[simp] theorem hdr_write (s : Store) (g : UInt32) (data : Bytes) : (s.write g data).hdr = s.hdr :=
  rfl

/-- Flushing the header changes page 1 only. -/
theorem read_flush_ne (s : Store) {g : UInt32} (h : g ≠ 1) : s.flush.read g = s.read g :=
  read_write_ne s h _

end Store

end Tdb
