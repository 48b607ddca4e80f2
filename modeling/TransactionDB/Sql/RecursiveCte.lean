import TransactionDB.Sql.SetOps

/-!
# TransactionDB — recursive common table expressions

`row_already_in` and `materialize_recursive_cte` of `src/sql/tdb_exec_select.inc`. The first SELECT of the
body (the seed) gives the first rows; the rest of the body (the step) then runs again and again with the rows
that the last round added as the rows of the table, until a round adds nothing. For UNION a round leaves out
the rows that are there already.

The step is run as a whole, so it may be a chain of set operations; how it runs is a parameter.
-/

namespace Tdb.Sql

/-- `row_already_in`. -/
def rowAlreadyIn (ncol : Nat) (acc : List Row) (row : Row) : Option Bool := inRows ncol row acc

/-- The loop over the rows of one round: what it adds. -/
def roundRows (ncol : Nat) (dedup : Bool) (acc : List Row) : List Row → Option (List Row)
  | [] => some []
  | r :: rs =>
    if dedup then
      match rowAlreadyIn ncol acc r with
      | none => none
      | some true => roundRows ncol dedup acc rs
      | some false => (roundRows ncol dedup acc rs).map (r :: ·)
    else (roundRows ncol dedup acc rs).map (r :: ·)

/-- The step of a recursive CTE: how it runs on the rows of the last round. Its number of columns does not
depend on them. -/
structure StepArm where
  width : Nat
  run : List Row → Except Status Results
  same : ∀ {rows t}, run rows = .ok t → t.ncol = width

/-- The rows so far (`acc`) and those of the last round (`wset`). -/
structure RecState where
  acc : List Row
  wset : List Row

/-- One round; `none`: nothing was added. -/
def recRound (ncol : Nat) (dedup : Bool) (step : StepArm) (s : RecState) : Except Fault (Option RecState) :=
  match step.run s.wset with
  | .error e => .error (.status e)
  | .ok t =>
    match roundRows ncol dedup s.acc t.rows with
    | none => .error .overread
    | some [] => .ok none
    | some next =>
      match next.mapM (dupRow ncol) with
      | none => .error .overread
      | some frontier => .ok (some ⟨s.acc ++ next, frontier⟩)

/-- The rounds, up to a number of them. -/
def recRounds (ncol : Nat) (dedup : Bool) (step : StepArm) : Nat → RecState → Except Fault (List Row)
  | 0, _ => .error (.status .error)
  | k + 1, s =>
    match recRound ncol dedup step s with
    | .error e => .error e
    | .ok none => .ok s.acc
    | .ok (some s') => recRounds ncol dedup step k s'

/-- `materialize_recursive_cte`: the operator behind the seed and the step, if the body has them. -/
def materializeRecursive (maxIters : Nat) (seed : Except Status Results)
    (next : Option (SetOp × StepArm)) : Except Fault (List Row) :=
  match seed with
  | .error e => .error (.status e)
  | .ok s =>
    match next with
    | none => .ok s.rows
    | some (op, step) => recRounds s.ncol (op = .union) step maxIters ⟨s.rows, s.rows⟩

/-! ## Rounds -/

/-- What a round adds, if all rows have the width of the seed. -/
theorem roundRows_eq {n : Nat} {acc : List Row} (hacc : ∀ r ∈ acc, r.length = n) (dedup : Bool) :
    ∀ {rows : List Row}, (∀ r ∈ rows, r.length = n) →
    roundRows n dedup acc rows = some (rows.filter fun r => !(dedup && acc.any (sameKey · r)))
  | [], _ => rfl
  | r :: rs, h => by
    have hrec := roundRows_eq hacc dedup fun q hq => h q (List.mem_cons_of_mem _ hq)
    rw [roundRows, rowAlreadyIn, inRows_eq (h r List.mem_cons_self) hacc, hrec]
    cases dedup with
    | false => simp
    | true => cases hr : acc.any (sameKey · r) <;> simp [hr]

/-- Some rounds that each add something. -/
inductive RecRun (ncol : Nat) (dedup : Bool) (step : StepArm) : Nat → RecState → RecState → Prop
  | start (s : RecState) : RecRun ncol dedup step 0 s s
  | round {k : Nat} {s s' s'' : RecState} (first : recRound ncol dedup step s = .ok (some s'))
      (rest : RecRun ncol dedup step k s' s'') : RecRun ncol dedup step (k + 1) s s''

/-- The rounds end with a status if a step fails, or if the last round allowed has added something. -/
theorem recRounds_status_iff {ncol : Nat} {dedup : Bool} {step : StepArm} : ∀ {n : Nat} {s : RecState},
    (∃ e, recRounds ncol dedup step n s = .error (.status e)) ↔
      ∃ k s', RecRun ncol dedup step k s s' ∧ (k = n ∨ k < n ∧ ∃ e, step.run s'.wset = .error e)
  | 0, s => by
    refine iff_of_true ⟨.error, rfl⟩ ⟨0, s, .start s, Or.inl rfl⟩
  | n + 1, s => by
    constructor
    · rintro ⟨e, he⟩
      rw [recRounds] at he
      cases hround : recRound ncol dedup step s with
      | error f =>
        rw [hround] at he
        obtain rfl : f = .status e := by simpa using he
        refine ⟨0, s, .start s, Or.inr ⟨Nat.succ_pos n, ?_⟩⟩
        rw [recRound] at hround
        cases hrun : step.run s.wset with
        | error e' => exact ⟨e', rfl⟩
        | ok t =>
          rw [hrun] at hround
          dsimp only at hround
          split at hround
          · cases hround
          · cases hround
          · split at hround <;> cases hround
      | ok o =>
        rw [hround] at he
        cases o with
        | none => cases he
        | some s' =>
          obtain ⟨k, s'', hrun, hend⟩ := recRounds_status_iff.mp ⟨e, he⟩
          refine ⟨k + 1, s'', .round hround hrun, ?_⟩
          rcases hend with rfl | ⟨hk, hfail⟩
          · exact Or.inl rfl
          · exact Or.inr ⟨Nat.succ_lt_succ hk, hfail⟩
    · rintro ⟨k, s'', hrun, hend⟩
      cases hrun with
      | start =>
        obtain ⟨e, he⟩ := (hend.resolve_left (Nat.succ_ne_zero n).symm).2
        refine ⟨e, ?_⟩
        rw [recRounds, recRound, he]
      | @round k _ s' _ hfirst hrest =>
        have hend' : k = n ∨ k < n ∧ ∃ e, step.run s''.wset = .error e := by
          rcases hend with heq | ⟨hlt, hfail⟩
          · exact Or.inl (Nat.succ_injective heq)
          · exact Or.inr ⟨Nat.lt_of_succ_lt_succ hlt, hfail⟩
        obtain ⟨e, he⟩ := recRounds_status_iff.mpr ⟨k, s'', hrest, hend'⟩
        refine ⟨e, ?_⟩
        rw [recRounds, hfirst]
        exact he

/-- A round of rows of one width. -/
theorem recRound_eq {n : Nat} {dedup : Bool} {step : StepArm} {s : RecState} (hstep : step.width = n)
    (hacc : ∀ r ∈ s.acc, r.length = n) {t : Results} (hrun : step.run s.wset = .ok t) :
    recRound n dedup step s = .ok
      (if (t.rows.filter fun r => !(dedup && s.acc.any (sameKey · r))) = [] then none
        else some ⟨s.acc ++ t.rows.filter fun r => !(dedup && s.acc.any (sameKey · r)),
          t.rows.filter fun r => !(dedup && s.acc.any (sameKey · r))⟩) := by
  have ht : ∀ r ∈ t.rows, r.length = n := fun r hr => by rw [t.width r hr, step.same hrun, hstep]
  rw [recRound, hrun]
  dsimp only
  rw [roundRows_eq hacc dedup ht]
  have hnext : ∀ r ∈ t.rows.filter (fun r => !(dedup && s.acc.any (sameKey · r))), r.length = n :=
    fun r hr => ht r (List.mem_filter.mp hr).1
  generalize t.rows.filter (fun r => !(dedup && s.acc.any (sameKey · r))) = next at hnext ⊢
  cases next with
  | nil => rfl
  | cons r rs =>
    dsimp only
    rw [mapM_dupRow hnext]
    rfl

/-- Where seed and step have one width, no row is read behind its end and all rows have that width. -/
theorem recRounds_width {n : Nat} {dedup : Bool} {step : StepArm} (hstep : step.width = n) :
    ∀ {k : Nat} {s : RecState}, (∀ r ∈ s.acc, r.length = n) →
    recRounds n dedup step k s ≠ .error .overread ∧
      ∀ rows, recRounds n dedup step k s = .ok rows → ∀ r ∈ rows, r.length = n
  | 0, s, _ => ⟨by simp [recRounds], by simp [recRounds]⟩
  | k + 1, s, hacc => by
    cases hrun : step.run s.wset with
    | error e =>
      have hround : recRound n dedup step s = .error (.status e) := by rw [recRound, hrun]
      rw [recRounds, hround]
      exact ⟨by simp, by simp⟩
    | ok t =>
      have hround := @recRound_eq n dedup step s hstep hacc t hrun
      rw [recRounds, hround]
      split
      · next heq => cases heq
      · next heq =>
        refine ⟨by simp, ?_⟩
        rintro rows ⟨⟩
        exact hacc
      · next s' heq =>
        split at heq
        · cases heq
        · obtain rfl := Option.some.inj (Except.ok.inj heq)
          refine recRounds_width hstep fun r hr => ?_
          rcases List.mem_append.mp hr with hr | hr
          · exact hacc r hr
          · rw [t.width r (List.mem_filter.mp hr).1, step.same hrun, hstep]

end Tdb.Sql
