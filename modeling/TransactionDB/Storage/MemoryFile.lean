import TransactionDB.Storage.File

/-!
# TransactionDB — the memory VFS against the OS one

`mem_grow`, `mem_read`, `mem_write`, `mem_truncate` and `mem_filesize`
(`src/storage/tdb_file.c`) keep a file in a buffer of `cap` bytes of which the first `size`
count. A truncation only lowers `size`, so what was cut off stays in the buffer; a write of
no bytes still moves `size` up to its offset.

Both VFSes take the same calls (`FileCall`) and are compared by what they answer. Allocation
succeeds, so offsets and capacities stay far below `2 ^ 63` and are naturals.
-/

namespace Tdb

open Layout List

/-- `mem_handle`: `data` is the whole buffer, `cap` its length. -/
structure MemHandle where
  data : Bytes := []
  size : Nat := 0
  size_le : size ≤ data.length := by simp

/-- The loop of `mem_grow`; `need` rounds are enough from a positive capacity. -/
def growCap (need : Nat) : Nat → Nat → Nat
  | 0, cap => cap
  | fuel + 1, cap => if cap < need then growCap need fuel (cap * 2) else cap

theorem le_growCap {need fuel cap : Nat} (hcap : 0 < cap) (h : need ≤ cap + fuel) :
    need ≤ growCap need fuel cap := by
  induction fuel generalizing cap with
  | zero => exact h
  | succ fuel ih =>
    unfold growCap
    split
    · exact ih (by omega) (by omega)
    · omega

/-- `mem_grow`: the new part of the buffer is zeroed. -/
def memGrow (data : Bytes) (need : Nat) : Bytes :=
  if need ≤ data.length then data
  else
    let cap := growCap need need (if data.length = 0 then 4096 else data.length)
    data ++ List.replicate (cap - data.length) 0

theorem memGrow_spec (data : Bytes) (need : Nat) :
    need ≤ (memGrow data need).length ∧ data.length ≤ (memGrow data need).length ∧
      ∀ i, (memGrow data need).getD i 0 = data.getD i 0 := by
  unfold memGrow
  split
  · exact ⟨‹_›, le_rfl, fun _ => rfl⟩
  · have hstart : 0 < (if data.length = 0 then 4096 else data.length) := by split <;> omega
    have hcap := @le_growCap need need _ hstart (by omega)
    refine ⟨?_, by simp, fun i => ?_⟩
    · rw [length_append, length_replicate]
      omega
    simp only [getD_eq_getElem?_getD, getElem?_append, getElem?_replicate]
    by_cases hi : i < data.length
    · rw [if_pos hi]
    · rw [if_neg hi, getElem?_eq_none (l := data) (by omega)]
      generalize growCap need need _ = cap
      split <;> rfl

/-- The bytes a handle stands for. -/
def MemHandle.contents (h : MemHandle) : Bytes := h.data.take h.size

/-- `mem_read`: what the first `size` bytes have of the range, then zeros. -/
def memRead (h : MemHandle) (n off : Nat) : Bytes := readPad 0 h.contents off n

/-- `mem_write`. -/
def memWrite (h : MemHandle) (buf : Bytes) (off : Nat) : MemHandle where
  data := splice (memGrow h.data (off + buf.length)) off buf
  size := max h.size (off + buf.length)
  size_le := by
    obtain ⟨hneed, hlen, -⟩ := memGrow_spec h.data (off + buf.length)
    have := h.size_le
    rw [length_splice hneed]
    omega

/-- `mem_truncate`. -/
def memTruncate (h : MemHandle) (size : Nat) : MemHandle where
  data := h.data
  size := min size h.size
  size_le := by have := h.size_le; omega

/-! ## Calls and answers -/

inductive FileCall where
  | write (buf : Bytes) (off : Nat)
  | truncate (size : Nat)
  | read (n off : Nat)
  | size
  deriving DecidableEq, Repr

inductive FileAnswer where
  | done
  | bytes (b : Bytes)
  | size (n : Nat)
  deriving DecidableEq, Repr

def memCall (h : MemHandle) : FileCall → FileAnswer × MemHandle
  | .write buf off => (.done, memWrite h buf off)
  | .truncate size => (.done, memTruncate h size)
  | .read n off => (.bytes (memRead h n off), h)
  | .size => (.size h.size, h)

/-- The same calls on a file of the OS VFS whose disk does not fail. -/
def osCall (f : File) : FileCall → FileAnswer × File
  | .write buf off => (.done, (fileWrite f buf off).2)
  | .truncate size => (.done, (fileTruncate f size).2)
  | .read n off => (.bytes (fileRead f n off), f)
  | .size => (.size f.bytes.length, f)

def memAfter (calls : List FileCall) : MemHandle :=
  calls.foldl (fun h c => (memCall h c).2) {}

def osAfter (calls : List FileCall) : File :=
  calls.foldl (fun f c => (osCall f c).2) ⟨[], []⟩

/-! ## The bytes a handle stands for -/

theorem MemHandle.length_contents (h : MemHandle) : h.contents.length = h.size := by
  simp [contents, h.size_le]

theorem MemHandle.getD_contents (h : MemHandle) (i : Nat) :
    h.contents.getD i 0 = if i < h.size then h.data.getD i 0 else 0 := by
  simp only [contents, getD_eq_getElem?_getD, getElem?_take]
  split <;> rfl

/-- The two VFSes answer every call alike exactly when they hold the same bytes. -/
theorem answers_eq_iff (h : MemHandle) (f : File) :
    (∀ c, (memCall h c).1 = (osCall f c).1) ↔ h.contents = f.bytes := by
  constructor
  · intro hall
    have hsize : h.size = f.bytes.length := by simpa [memCall, osCall] using hall .size
    have hread : memRead h h.size 0 = fileRead f h.size 0 := by
      simpa [memCall, osCall] using hall (.read h.size 0)
    rw [memRead, fileRead, readPad_eq_slice 0 (by simp [h.length_contents]),
      readPad_eq_slice 0 (by omega)] at hread
    have hlen := h.length_contents
    rw [slice, slice, drop_zero, drop_zero, take_of_length_le (by omega),
      take_of_length_le (by omega)] at hread
    exact hread
  · intro heq c
    cases c with
    | write buf off => rfl
    | truncate size => rfl
    | read n off => simp only [memCall, osCall, memRead, fileRead, heq]
    | size => simp only [memCall, osCall, ← heq, h.length_contents]

/-! ## Runs -/

/-- The calls the memory VFS carries out as a file would: a truncation that does not extend,
a write of some bytes (or of none inside the file) over a gap the buffer has zeros in. -/
def MemHandle.Plain (h : MemHandle) : FileCall → Prop
  | .write buf off => (buf = [] → off ≤ h.size) ∧
      ∀ i, h.size ≤ i → i < off → h.data.getD i 0 = 0
  | .truncate size => size ≤ h.size
  | _ => True

theorem memWrite_contents_iff (h : MemHandle) (buf : Bytes) (off : Nat) :
    (memWrite h buf off).contents = writePad 0 h.contents off buf ↔ h.Plain (.write buf off) := by
  obtain ⟨hneed, hlen, hgrow⟩ := memGrow_spec h.data (off + buf.length)
  have hget : ∀ i, (memWrite h buf off).data.getD i 0 =
      if off ≤ i ∧ i < off + buf.length then buf.getD (i - off) 0 else h.data.getD i 0 := by
    intro i
    rw [← hgrow i, ← getD_writePad, writePad]
    split
    · rename_i hbuf
      simp [memWrite, splice, isEmpty_iff.mp hbuf]
    · simp [memWrite, show off - (memGrow h.data (off + buf.length)).length = 0 by omega]
  have hsize : (memWrite h buf off).size = max h.size (off + buf.length) := rfl
  rw [eq_iff_getD 0, MemHandle.length_contents, hsize]
  simp only [MemHandle.getD_contents, getD_writePad, hget, hsize, MemHandle.Plain]
  by_cases hbuf : buf = []
  · subst hbuf
    simp only [writePad, isEmpty_nil, if_true, h.length_contents, length_nil,
      Nat.add_zero, forall_const]
    constructor
    · rintro ⟨hmax, -⟩
      exact ⟨by omega, fun i _ _ => by omega⟩
    · rintro ⟨hoff, -⟩
      rw [max_eq_left hoff]
      refine ⟨rfl, fun i => ?_⟩
      have hw : ¬(off ≤ i ∧ i < off) := by omega
      simp only [hw, if_false]
  · rw [length_writePad 0 hbuf, h.length_contents]
    constructor
    · rintro ⟨-, hall⟩
      refine ⟨fun hnil => absurd hnil hbuf, fun i hi hoff => ?_⟩
      have hi' := hall i
      rwa [if_pos (by omega), if_neg (by omega), if_neg (by omega), if_neg (by omega)] at hi'
    · rintro ⟨-, hgap⟩
      refine ⟨rfl, fun i => ?_⟩
      by_cases hw : off ≤ i ∧ i < off + buf.length
      · rw [if_pos (by omega), if_pos hw, if_pos hw]
      · rw [if_neg hw, if_neg hw]
        by_cases hi : i < h.size
        · rw [if_pos (by omega), if_pos hi]
        · rw [if_neg hi]
          split
          · exact hgap i (by omega) (by omega)
          · rfl

theorem memTruncate_contents_iff (h : MemHandle) (size : Nat) :
    (memTruncate h size).contents = readPad 0 h.contents 0 size ↔ h.Plain (.truncate size) := by
  rw [MemHandle.Plain]
  constructor
  · intro heq
    have hlen := congrArg List.length heq
    rw [MemHandle.length_contents, length_readPad] at hlen
    have hmin : (memTruncate h size).size = min size h.size := rfl
    omega
  · intro hle
    rw [readPad_eq_slice 0 (by rw [h.length_contents]; omega)]
    simp [MemHandle.contents, memTruncate, slice, take_take]

/-- One call keeps the two sides equal exactly when it is plain. -/
theorem call_contents_iff {h : MemHandle} {f : File} (hfail : f.fail = [])
    (heq : h.contents = f.bytes) (c : FileCall) :
    (memCall h c).2.contents = (osCall f c).2.bytes ↔ h.Plain c := by
  cases c with
  | write buf off =>
    simp only [memCall, osCall, fileWrite_ok hfail, ← heq]
    exact memWrite_contents_iff h buf off
  | truncate size =>
    simp only [memCall, osCall, fileTruncate_ok hfail, ← heq]
    exact memTruncate_contents_iff h size
  | read n off | size => simp [memCall, osCall, heq, MemHandle.Plain]

theorem osAfter_fail (calls : List FileCall) : (osAfter calls).fail = [] := by
  induction calls using List.reverseRecOn with
  | nil => rfl
  | append_singleton calls c ih =>
    simp only [osAfter, foldl_append, foldl_cons, foldl_nil] at ih ⊢
    cases c with
    | write buf off => rw [osCall, fileWrite_ok ih]
    | truncate size => rw [osCall, fileTruncate_ok ih]
    | read n off | size => exact ih

/-- The memory VFS answers as a file does throughout a sequence of calls exactly when every
call of the sequence is plain where it is made. -/
theorem memory_file_iff (calls : List FileCall) :
    (∀ pre, pre <+: calls → ∀ c, (memCall (memAfter pre) c).1 = (osCall (osAfter pre) c).1) ↔
      ∀ pre c, pre ++ [c] <+: calls → (memAfter pre).Plain c := by
  simp only [answers_eq_iff]
  induction calls using List.reverseRecOn with
  | nil => simp [memAfter, osAfter, MemHandle.contents]
  | append_singleton calls c ih =>
    have hstep := call_contents_iff (osAfter_fail calls) (h := memAfter calls) (c := c)
    have hmem : memAfter (calls ++ [c]) = (memCall (memAfter calls) c).2 := by simp [memAfter]
    have hos : osAfter (calls ++ [c]) = (osCall (osAfter calls) c).2 := by simp [osAfter]
    simp only [List.prefix_concat_iff]
    constructor
    · intro hall pre d hpre
      have hold := ih.mp (fun p hp => hall p (Or.inr hp))
      rcases hpre with hlast | hpre
      · obtain ⟨rfl, hd⟩ := append_inj' hlast rfl
        cases hd
        refine (hstep (hall pre (Or.inr List.prefix_rfl))).mp ?_
        rw [← hmem, ← hos]
        exact hall _ (Or.inl rfl)
      · exact hold pre d hpre
    · intro hall pre hpre
      have hold := ih.mpr (fun p d hp => hall p d (Or.inr hp))
      rcases hpre with rfl | hpre
      · rw [hmem, hos]
        exact (hstep (hold calls List.prefix_rfl)).mpr (hall calls c (Or.inl rfl))
      · exact hold pre hpre

/-- A byte that a truncation cut off comes back when a later write leaves a gap over it. -/
theorem memory_file_stale :
    let calls := [.write [7] 0, .truncate 0, .write [9] 1]
    (memCall (memAfter calls) (.read 1 0)).1 = .bytes [7] ∧
      (osCall (osAfter calls) (.read 1 0)).1 = .bytes [0] := by
  decide +kernel

end Tdb
