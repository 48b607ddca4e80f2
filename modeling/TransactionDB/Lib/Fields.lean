import TransactionDB.Lib.Layout

/-!
# Fields — fixed-offset records written into a buffer

A record of a binary format is a table of fields `(offset, bytes)` written one after the
other into a zeroed buffer. When the fields stay inside the buffer and no two of them
overlap, every field reads back what was written, in whatever order they were stored.
-/

namespace Layout

variable {α : Type*}

/-- Store the fields of a record, left to right. -/
def writeFields (xs : List α) (fields : List (Nat × List α)) : List α :=
  fields.foldl (fun b f => splice b f.1 f.2) xs

/-- The windows of two fields do not overlap. -/
def FieldsDisjoint (f g : Nat × List α) : Prop :=
  f.1 + f.2.length ≤ g.1 ∨ g.1 + g.2.length ≤ f.1

/-- A table of fields that fits a buffer of `n` elements without overlaps. -/
structure FieldsFit (n : Nat) (fields : List (Nat × List α)) : Prop where
  inside : ∀ f ∈ fields, f.1 + f.2.length ≤ n
  disjoint : fields.Pairwise FieldsDisjoint

theorem FieldsFit.tail {n : Nat} {f : Nat × List α} {fs : List (Nat × List α)}
    (h : FieldsFit n (f :: fs)) : FieldsFit n fs :=
  ⟨fun g hg => h.inside g (List.mem_cons_of_mem _ hg), (List.pairwise_cons.mp h.disjoint).2⟩

section

variable {xs : List α} {fields : List (Nat × List α)} (h : FieldsFit xs.length fields)

include h

theorem length_writeFields : (writeFields xs fields).length = xs.length := by
  induction fields generalizing xs with
  | nil => rfl
  | cons f fs ih =>
    have hf : f.1 + f.2.length ≤ xs.length := h.inside f (by simp)
    have hlen : (splice xs f.1 f.2).length = xs.length := length_splice hf
    have htail : FieldsFit (splice xs f.1 f.2).length fs := by rw [hlen]; exact h.tail
    calc (writeFields xs (f :: fs)).length
        = (writeFields (splice xs f.1 f.2) fs).length := rfl
      _ = (splice xs f.1 f.2).length := ih htail
      _ = xs.length := hlen

/-- A window that no field touches keeps the buffer's contents. -/
theorem slice_writeFields_of_disjoint {off n : Nat}
    (hd : ∀ f ∈ fields, off + n ≤ f.1 ∨ f.1 + f.2.length ≤ off) :
    slice (writeFields xs fields) off n = slice xs off n := by
  induction fields generalizing xs with
  | nil => rfl
  | cons f fs ih =>
    have hf : f.1 + f.2.length ≤ xs.length := h.inside f (by simp)
    have htail : FieldsFit (splice xs f.1 f.2).length fs := by
      rw [length_splice hf]; exact h.tail
    calc slice (writeFields xs (f :: fs)) off n
        = slice (writeFields (splice xs f.1 f.2) fs) off n := rfl
      _ = slice (splice xs f.1 f.2) off n := ih htail (fun g hg => hd g (List.mem_cons_of_mem _ hg))
      _ = slice xs off n := slice_splice_of_disjoint hf (hd f (by simp))

/-- Every field of the table reads back. -/
theorem slice_writeFields {off : Nat} {ys : List α} (hmem : (off, ys) ∈ fields) :
    slice (writeFields xs fields) off ys.length = ys := by
  induction fields generalizing xs with
  | nil => exact absurd hmem (by simp)
  | cons f fs ih =>
    have hf : f.1 + f.2.length ≤ xs.length := h.inside f (by simp)
    have htail : FieldsFit (splice xs f.1 f.2).length fs := by
      rw [length_splice hf]; exact h.tail
    rcases List.mem_cons.mp hmem with heq | hin
    · -- the field just stored: the ones after it lie elsewhere
      subst heq
      have hdisj := (List.pairwise_cons.mp h.disjoint).1
      calc slice (writeFields xs ((off, ys) :: fs)) off ys.length
          = slice (writeFields (splice xs off ys) fs) off ys.length := rfl
        _ = slice (splice xs off ys) off ys.length :=
            slice_writeFields_of_disjoint htail (fun g hg => hdisj g hg)
        _ = ys := slice_splice_self hf
    · exact ih htail hin

end

end Layout
