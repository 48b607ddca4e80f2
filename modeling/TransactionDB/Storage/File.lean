import TransactionDB.Common.Util

/-!
# TransactionDB — files

The OS-backed file layer (`src/storage/tdb_file.c`). A file is its bytes; a read past the
end is zero-filled, a write past the end leaves a hole of zeros, truncation may also
extend. Reads do not fail here. What a write, a sync or a truncation can do is fail: `fail`
lists the outcomes of the calls to come, `none` for a call that succeeds and `some n` for
one that returns `TDB_IOERR` after `n` bytes reached the file. Once the list is used up
every call succeeds, so `fail = []` is a disk without errors.
-/

namespace Tdb

open Layout

variable {f f' : File}

structure File where
  bytes : Bytes
  fail : List (Option Nat) := []
  deriving DecidableEq, Repr

/-- `tdb_file_read`: `n` bytes from `off`, zero-filled past the end. -/
def fileRead (f : File) (n off : Nat) : Bytes := readPad 0 f.bytes off n

/-- `tdb_file_write`. A failing write may have stored a first part of the buffer. -/
def fileWrite (f : File) (buf : Bytes) (off : Nat) : Status × File :=
  match f.fail with
  | [] => (.ok, { f with bytes := writePad 0 f.bytes off buf })
  | none :: rest => (.ok, ⟨writePad 0 f.bytes off buf, rest⟩)
  | some n :: rest => (.ioerr, ⟨writePad 0 f.bytes off (buf.take n), rest⟩)

/-- `tdb_file_sync`: the model's writes reach the file at once, so only the outcome counts. -/
def fileSync (f : File) : Status × File :=
  match f.fail with
  | [] => (.ok, f)
  | none :: rest => (.ok, { f with fail := rest })
  | some _ :: rest => (.ioerr, { f with fail := rest })

/-- `tdb_file_truncate`: `ftruncate` to `size` bytes. -/
def fileTruncate (f : File) (size : Nat) : Status × File :=
  match f.fail with
  | [] => (.ok, { f with bytes := readPad 0 f.bytes 0 size })
  | none :: rest => (.ok, ⟨readPad 0 f.bytes 0 size, rest⟩)
  | some _ :: rest => (.ioerr, { f with fail := rest })

/-- A segment of the file, read at its start. -/
theorem fileRead_mid (xs ys zs : Bytes) {n off : Nat} (h : f.bytes = xs ++ (ys ++ zs))
    (hn : n = ys.length) (hoff : off = xs.length) :
    fileRead f n off = ys := by
  subst hn hoff
  rw [fileRead, h, readPad_eq_slice 0 (by simp), slice_append_mid]

theorem fileWrite_ok (h : f.fail = []) (buf : Bytes) (off : Nat) :
    fileWrite f buf off = (.ok, ⟨writePad 0 f.bytes off buf, []⟩) := by
  simp [fileWrite, h]

/-- What a write that returned `TDB_OK` did. -/
theorem fileWrite_ok_inv {buf : Bytes} {off : Nat} (h : fileWrite f buf off = (.ok, f')) :
    f'.bytes = writePad 0 f.bytes off buf ∧ f'.fail = f.fail.tail := by
  unfold fileWrite at h
  split at h
  · rename_i hfail
    cases h
    simp [hfail]
  · rename_i rest hfail
    cases h
    simp [hfail]
  · cases h

/-- What any write did: it stored some first part of the buffer. -/
theorem fileWrite_bytes {buf : Bytes} {off : Nat} {rc : Status} (h : fileWrite f buf off = (rc, f')) :
    ∃ n, f'.bytes = writePad 0 f.bytes off (buf.take n) := by
  unfold fileWrite at h
  split at h
  · cases h
    exact ⟨buf.length, by rw [List.take_length]⟩
  · cases h
    exact ⟨buf.length, by rw [List.take_length]⟩
  · rename_i n rest _
    cases h
    exact ⟨n, rfl⟩

/-- A write at the end of a segment, successful or not, keeps the segment. -/
theorem fileWrite_keeps {pre tail : Bytes} (h : f.bytes = pre ++ tail) (buf : Bytes) :
    ∃ tail', (fileWrite f buf pre.length).2.bytes = pre ++ tail' := by
  unfold fileWrite
  split
  · exact ⟨_, by rw [h]; exact writePad_append 0 pre buf tail⟩
  · exact ⟨_, by rw [h]; exact writePad_append 0 pre buf tail⟩
  · exact ⟨_, by rw [h]; exact writePad_append 0 pre _ tail⟩

theorem fileSync_ok (h : f.fail = []) : fileSync f = (.ok, f) := by
  simp [fileSync, h]

theorem fileSync_bytes {rc : Status} (h : fileSync f = (rc, f')) :
    f'.bytes = f.bytes := by
  unfold fileSync at h
  split at h <;> (cases h; rfl)

/-- A truncation cuts the file, or leaves it alone and fails. -/
theorem fileTruncate_bytes {size : Nat} {rc : Status} (h : fileTruncate f size = (rc, f')) :
    (rc = .ok ∧ f'.bytes = readPad 0 f.bytes 0 size) ∨ (rc ≠ .ok ∧ f'.bytes = f.bytes) := by
  unfold fileTruncate at h
  split at h
  · cases h
    exact Or.inl ⟨rfl, rfl⟩
  · cases h
    exact Or.inl ⟨rfl, rfl⟩
  · cases h
    exact Or.inr ⟨by simp, rfl⟩

theorem fileTruncate_ok (h : f.fail = []) (size : Nat) :
    fileTruncate f size = (.ok, ⟨readPad 0 f.bytes 0 size, []⟩) := by
  simp [fileTruncate, h]

end Tdb
