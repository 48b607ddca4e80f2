import Mathlib.Tactic

/-!
# Reader — reading back what was written

A reader takes what it needs from the head of a list and leaves the rest, or fails. A format is a
pair of a writer, which makes a list, and a reader; the pair is right when the reader gives back
what was written with anything behind it. `Reads` is that statement for one value, and it composes
as the readers do.
-/

/-- A reader of values of type `α` from a list. -/
abbrev Reader (β α : Type) := StateT (List β) Option α

namespace Reader

open List

variable {α β γ : Type}

variable {a : α} {w : List β} {f : α → Reader β γ} {r : Reader β α}

/-- The reader takes exactly `w` and gives `a`, whatever is behind. -/
def Reads (r : Reader β α) (w : List β) (a : α) : Prop := ∀ rest, r.run (w ++ rest) = some (a, rest)

/-- `n` values, one behind the other. -/
def times (r : Reader β α) : Nat → Reader β (List α)
  | 0 => pure []
  | n + 1 => do
    let a ← r
    let as ← times r n
    pure (a :: as)

/-- The default at the end of the input. -/
def orAtEnd (d : α) (r : Reader β α) : Reader β α := fun s => if s.isEmpty then some (d, s) else r s

/-- One element. -/
def next : Reader β β := fun
  | [] => none
  | b :: s => some (b, s)

/-- The next `n` elements. -/
def takeN (n : Nat) : Reader β (List β) := fun s =>
  if n ≤ s.length then some (s.take n, s.drop n) else none

theorem reads_pure (a : α) : Reads (pure a : Reader β α) [] a := fun _ => rfl

/-- Behind what the first reader takes, the second one goes on. -/
theorem Reads.run_bind {rest : List β} {out : Option (γ × List β)} (hr : Reads r w a)
    (hf : (f a).run rest = out) : (r >>= f).run (w ++ rest) = out := by
  rw [StateT.run_bind, hr rest]
  exact hf

theorem Reads.bind {v : List β} {c : γ} (hr : Reads r v a) (hf : Reads (f a) w c) :
    Reads (r >>= f) (v ++ w) c := by
  intro rest
  rw [append_assoc]
  exact hr.run_bind (hf rest)

/-- The last step of a sequence of readers: nothing more is read. -/
theorem Reads.bind_pure {c : γ} (hr : Reads r w a) (hf : f a = pure c) : Reads (r >>= f) w c := by
  have h := hr.bind (f := f) (w := []) (c := c) (by rw [hf]; exact reads_pure c)
  rwa [append_nil] at h

theorem Reads.map (f : α → γ) (hr : Reads r w a) :
    Reads (f <$> r) w (f a) := by
  rw [map_eq_pure_bind]
  exact hr.bind_pure rfl

theorem reads_times {w : α → List β} {as : List α} (h : ∀ a ∈ as, Reads r (w a) a) :
    Reads (times r as.length) (as.flatMap w) as := by
  induction as with
  | nil => exact reads_pure []
  | cons a as ih =>
    rw [flatMap_cons, length_cons, times]
    exact (h a mem_cons_self).bind ((ih (forall_mem_cons.mp h).2).bind_pure rfl)

theorem Reads.orAtEnd (d : α) (hw : w ≠ []) (hr : Reads r w a) :
    Reads (orAtEnd d r) w a := by
  intro rest
  have hne : (w ++ rest).isEmpty = false := by simp [hw]
  show (if (w ++ rest).isEmpty then _ else r (w ++ rest)) = _
  rw [hne]
  exact hr rest

theorem reads_next (b : β) : Reads next [b] b := fun _ => rfl

theorem reads_takeN (w : List β) : Reads (takeN w.length) w w := by
  intro rest
  show (if w.length ≤ (w ++ rest).length then _ else _) = _
  rw [if_pos (by simp), take_left, drop_left]

end Reader
