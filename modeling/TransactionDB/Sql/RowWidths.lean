import TransactionDB.Sql.RecursiveCte

/-!
# TransactionDB — widths of rows

The arms of a compound SELECT, and the seed and the step of a recursive CTE, should have the same number of
columns; where they do not, the statement should be rejected. Neither `exec_setop_chain` nor
`materialize_recursive_cte` looks at the widths of any but the first: they read every row as if it had that
one. So a statement with different widths is rejected only if it fails for another reason, and before a row
is read behind its end (`widths_agree_iff`).

How the arms run is a parameter, so the arms may be compound or read CTEs themselves.
-/

namespace Tdb.Sql

open Sorting List

variable {clause : LimitClause} {evc : Expr → Value}

/-! ## A chain that fails -/

section

variable {β : Type} {run : SelNode β → Except Status Results}

theorem chainFold_status_iff {w : Nat} : ∀ {others : List (SelNode β)} {ops : List SetOp} {acc : List Row},
    ops.length = others.length →
    ((∃ e, chainFold run w acc (ops.zip others) = .error (.status e)) ↔
      ∃ front n rest, others = front ++ n :: rest ∧ (∃ acc', chainFold run w acc (ops.zip front) = .ok acc') ∧
        ∃ e, run n = .error e)
  | [], ops, acc, _ => by simp [chainFold]
  | n :: others, [], acc, h => by simp at h
  | n :: others, op :: ops, acc, h => by
    have hlen : ops.length = others.length := by simpa using h
    rw [zip_cons_cons, chainFold]
    cases hrun : run n with
    | error e =>
      refine iff_of_true ⟨e, rfl⟩ ⟨[], n, others, rfl, ⟨acc, ?_⟩, e, hrun⟩
      simp [chainFold]
    | ok tb =>
      dsimp only
      cases hcomb : combine op w acc tb.rows with
      | none =>
        refine iff_of_false (by simp) ?_
        rintro ⟨front, m, rest, heq, ⟨acc', hacc⟩, e, hfail⟩
        cases front with
        | nil =>
          obtain ⟨rfl, -⟩ := List.cons.inj heq
          rw [hrun] at hfail
          cases hfail
        | cons x front =>
          obtain ⟨rfl, -⟩ := List.cons.inj heq
          rw [zip_cons_cons, chainFold, hrun] at hacc
          dsimp only at hacc
          rw [hcomb] at hacc
          cases hacc
      | some acc2 =>
        dsimp only
        rw [chainFold_status_iff hlen]
        constructor
        · rintro ⟨front, m, rest, rfl, ⟨acc', hacc⟩, hfail⟩
          refine ⟨n :: front, m, rest, rfl, ⟨acc', ?_⟩, hfail⟩
          rw [zip_cons_cons, chainFold, hrun]
          dsimp only
          rw [hcomb]
          exact hacc
        · rintro ⟨front, m, rest, heq, ⟨acc', hacc⟩, e, hfail⟩
          cases front with
          | nil =>
            obtain ⟨rfl, -⟩ := List.cons.inj heq
            rw [hrun] at hfail
            cases hfail
          | cons x front =>
            obtain ⟨rfl, rfl⟩ := List.cons.inj heq
            rw [zip_cons_cons, chainFold, hrun] at hacc
            dsimp only at hacc
            rw [hcomb] at hacc
            exact ⟨front, m, rest, rfl, ⟨acc', hacc⟩, e, hfail⟩

/-- Some arms run and are combined without a read behind the end of a row. -/
def Combined (run : SelNode β → Except Status Results) (ops : List SetOp) : List (SelNode β) → Prop
  | [] => True
  | first :: others => ∃ t acc, run first = .ok t ∧ chainFold run t.ncol t.rows (ops.zip others) = .ok acc

/-- Some arm fails, and the arms in front of it were combined. -/
def FailsInTime (run : SelNode β → Except Status Results) (ops : List SetOp) (arms : List (SelNode β)) : Prop :=
  ∃ front n rest, arms = front ++ n :: rest ∧ Combined run ops front ∧ ∃ e, run n = .error e

/-- A chain is rejected exactly if an arm fails. -/
theorem armsResult_status_iff {qsort : Sorter} {order : Option OrderBy} {ops : List SetOp}
    {first : SelNode β} {others : List (SelNode β)} (hlen : ops.length = others.length) :
    (∃ e, armsResult qsort run evc order clause ops (first :: others) = .error (.status e)) ↔
      FailsInTime run ops (first :: others) := by
  rw [armsResult]
  cases hrun : run first with
  | error e => exact iff_of_true ⟨e, rfl⟩ ⟨[], first, others, rfl, trivial, e, hrun⟩
  | ok t =>
    dsimp only
    rw [mapM_dupRow t.width]
    dsimp only
    have hfold : (∃ e, chainFold run t.ncol t.rows (ops.zip others) = .error (.status e)) ↔
        FailsInTime run ops (first :: others) := by
      rw [chainFold_status_iff hlen]
      constructor
      · rintro ⟨front, n, rest, rfl, ⟨acc, hacc⟩, hfail⟩
        exact ⟨first :: front, n, rest, rfl, ⟨t, acc, hrun, hacc⟩, hfail⟩
      · rintro ⟨front, n, rest, heq, hcomb, e, hfail⟩
        cases front with
        | nil =>
          obtain ⟨rfl, -⟩ := List.cons.inj heq
          rw [hrun] at hfail
          cases hfail
        | cons x front =>
          obtain ⟨rfl, rfl⟩ := List.cons.inj heq
          obtain ⟨t', acc, hrun', hacc⟩ := hcomb
          obtain rfl := Except.ok.inj (hrun.symm.trans hrun')
          exact ⟨front, n, rest, rfl, ⟨acc, hacc⟩, e, hfail⟩
    rw [← hfold]
    cases chainFold run t.ncol t.rows (ops.zip others) with
    | error f => simp
    | ok acc => simp

end

theorem length_operators {β : Type} : ∀ {chain : List (SelNode β)}, Linked chain →
    (operators chain).length + 1 = chain.length
  | [n], h => by simp [operators, h.1]
  | n :: m :: rest, h => by
    obtain ⟨op, hop⟩ := Option.isSome_iff_exists.mp h.1
    have hops : operators (n :: m :: rest) = op :: operators (m :: rest) := by
      rw [operators, filterMap_cons, hop]
      rfl
    rw [hops, length_cons, length_cons, length_operators h.2.2]

/-! ## Chains of one width -/

section

variable {β : Type} {run : SelNode β → Except Status Results}

/-- The arms that succeed have the same number of columns. -/
def SameWidths (run : SelNode β → Except Status Results) (arms : List (SelNode β)) : Prop :=
  ∀ a ∈ arms, ∀ b ∈ arms, ∀ r s, run a = .ok r → run b = .ok s → r.ncol = s.ncol

theorem chainFold_width {w : Nat} : ∀ {others : List (SelNode β)} {ops : List SetOp} {acc : List Row},
    (∀ n ∈ others, ∀ r, run n = .ok r → r.ncol = w) → (∀ x ∈ acc, x.length = w) →
    chainFold run w acc (ops.zip others) ≠ .error .overread ∧
      ∀ out, chainFold run w acc (ops.zip others) = .ok out → ∀ x ∈ out, x.length = w
  | [], ops, acc, _, hacc => by
    rw [zip_nil_right, chainFold]
    refine ⟨by simp, ?_⟩
    rintro out ⟨⟩
    exact hacc
  | n :: others, [], acc, _, hacc => by
    rw [zip_nil_left, chainFold]
    refine ⟨by simp, ?_⟩
    rintro out ⟨⟩
    exact hacc
  | n :: others, op :: ops, acc, hw, hacc => by
    rw [zip_cons_cons, chainFold]
    cases hrun : run n with
    | error e => exact ⟨by simp, by simp⟩
    | ok tb =>
      have htb : ∀ x ∈ tb.rows, x.length = w := fun x hx =>
        (tb.width x hx).trans (hw n mem_cons_self tb hrun)
      dsimp only
      rw [combine_eq op hacc htb]
      exact chainFold_width (forall_mem_cons.mp hw).2 (length_setOpRows op hacc htb)

theorem orderRows_perm (qsort : Sorter) (names : List Bytes) (rows : List Row) (order : Option OrderBy) :
    (orderRows qsort names rows order).Perm rows := by
  cases order with
  | none => exact List.Perm.refl _
  | some o => exact sortResult_perm qsort names o rows

theorem mem_of_mem_publishRows {ρ : Type} {rows : List ρ} {r : ρ}
    (h : r ∈ publishRows evc clause rows) : r ∈ rows := by
  rw [publishRows, publish_eq, cut] at h
  split at h
  · exact mem_of_mem_drop h
  · exact mem_of_mem_drop (mem_of_mem_take h)

theorem armsResult_width {qsort : Sorter} {order : Option OrderBy} {ops : List SetOp}
    {arms : List (SelNode β)} (h : SameWidths run arms) :
    armsResult qsort run evc order clause ops arms ≠ .error .overread ∧
      ∀ res, armsResult qsort run evc order clause ops arms = .ok res → ∀ row ∈ res.rows, row.length = res.ncol := by
  cases arms with
  | nil => exact ⟨by simp [armsResult], by simp [armsResult]⟩
  | cons first others =>
    rw [armsResult]
    cases hrun : run first with
    | error e => exact ⟨by simp, by simp⟩
    | ok t =>
      dsimp only
      rw [mapM_dupRow t.width]
      dsimp only
      have hfold := @chainFold_width β run t.ncol others ops t.rows (fun n hn r hr =>
        (h first mem_cons_self n (mem_cons_of_mem _ hn) t r hrun hr).symm) t.width
      cases hres : chainFold run t.ncol t.rows (ops.zip others) with
      | error f =>
        rw [hres] at hfold
        refine ⟨?_, by simp⟩
        simpa using hfold.1
      | ok acc =>
        refine ⟨by simp, ?_⟩
        rintro res ⟨⟩ row hrow
        exact hfold.2 acc hres row ((orderRows_perm qsort t.names acc order).subset (mem_of_mem_publishRows hrow))

end

/-! ## The law -/

/-- The result of a chain. -/
def chainResult (qsort : Sorter) {β : Type} (run : SelNode β → Except Status Results) (evc : Expr → Value)
    (c : SelChain β) : Except Fault ChainResult :=
  (execSetopChain qsort run evc c.nodes).2

/-- Arms with different numbers of columns are rejected; otherwise no row is read behind its end, and all
rows have the columns of the statement. -/
structure ChainWidthLaw (qsort : Sorter) {β : Type} (run : SelNode β → Except Status Results)
    (evc : Expr → Value) (c : SelChain β) : Prop where
  reject : ¬SameWidths run (arms c.nodes) → ∃ e, chainResult qsort run evc c = .error (.status e)
  rows : SameWidths run (arms c.nodes) → chainResult qsort run evc c ≠ .error .overread ∧
    ∀ res, chainResult qsort run evc c = .ok res → ∀ row ∈ res.rows, row.length = res.ncol

/-- The same for the seed and the step of a recursive CTE. -/
structure RecWidthLaw (maxIters : Nat) (seed : Except Status Results) (op : SetOp) (step : StepArm) : Prop where
  reject : ∀ s, seed = .ok s → s.ncol ≠ step.width →
    ∃ e, materializeRecursive maxIters seed (some (op, step)) = .error (.status e)
  rows : ∀ s, seed = .ok s → s.ncol = step.width →
    materializeRecursive maxIters seed (some (op, step)) ≠ .error .overread ∧
      ∀ rows, materializeRecursive maxIters seed (some (op, step)) = .ok rows →
        ∀ row ∈ rows, row.length = s.ncol

/-- Some round fails, or the last one allowed has added something, before a row is read behind its end. -/
def RoundsFail (maxIters : Nat) (s : Results) (op : SetOp) (step : StepArm) : Prop :=
  ∃ k s', RecRun s.ncol (op = .union) step k ⟨s.rows, s.rows⟩ s' ∧
    (k = maxIters ∨ k < maxIters ∧ ∃ e, step.run s'.wset = .error e)

/-- Different widths are rejected only where something else fails in time. -/
theorem widths_agree_iff (qsort : Sorter) {β : Type} (run : SelNode β → Except Status Results)
    (evc : Expr → Value) (c : SelChain β) (maxIters : Nat) (seed : Except Status Results) (op : SetOp)
    (step : StepArm) :
    (ChainWidthLaw qsort run evc c ↔
      SameWidths run (arms c.nodes) ∨ FailsInTime run (operators c.nodes) (arms c.nodes)) ∧
    (RecWidthLaw maxIters seed op step ↔
      ∀ s, seed = .ok s → s.ncol = step.width ∨ RoundsFail maxIters s op step) := by
  constructor
  · obtain ⟨nodes, hlinked⟩ := c
    obtain ⟨front, last, rfl, hpos⟩ := hlinked.last
    have hresult : chainResult qsort run evc ⟨front ++ [last], hlinked⟩ =
        armsResult qsort run evc last.order last.clause (operators (front ++ [last]))
          (arms (front ++ [last])) := by
      rw [chainResult, execSetopChain_eq qsort run evc hlinked hpos]
    obtain ⟨first, others, harms⟩ : ∃ first others, arms (front ++ [last]) = first :: others := by
      have hne : arms (front ++ [last]) ≠ [] := by
        rw [arms, hpos, modify_last]
        simp
      exact exists_cons_of_ne_nil hne
    have hlen : (operators (front ++ [last])).length = others.length := by
      have hops := length_operators hlinked
      have harms' := congrArg List.length harms
      rw [arms, length_map, length_modify, length_cons] at harms'
      omega
    have hstatus : (∃ e, chainResult qsort run evc ⟨front ++ [last], hlinked⟩ = .error (.status e)) ↔
        FailsInTime run (operators (front ++ [last])) (arms (front ++ [last])) := by
      rw [hresult, harms, armsResult_status_iff hlen]
    constructor
    · intro h
      by_cases hsame : SameWidths run (arms (front ++ [last]))
      · exact Or.inl hsame
      · exact Or.inr (hstatus.mp (h.reject hsame))
    · intro h
      refine ⟨fun hdiff => hstatus.mpr (h.resolve_left hdiff), fun hsame => ?_⟩
      rw [hresult]
      exact armsResult_width hsame
  · cases seed with
    | error e => exact iff_of_true ⟨by simp, by simp⟩ (by simp)
    | ok s =>
      have hstatus : (∃ e, materializeRecursive maxIters (.ok s) (some (op, step)) = .error (.status e)) ↔
          RoundsFail maxIters s op step := recRounds_status_iff
      constructor
      · rintro h _ ⟨⟩
        by_cases hw : s.ncol = step.width
        · exact Or.inl hw
        · exact Or.inr (hstatus.mp (h.reject s rfl hw))
      · intro h
        constructor
        · rintro _ ⟨⟩ hne
          exact hstatus.mpr ((h s rfl).resolve_left hne)
        · rintro _ ⟨⟩ hw
          exact recRounds_width hw.symm s.width

/-- `SELECT 1 UNION ALL SELECT 2, 3`. -/
def unevenChain : SelChain Results where
  nodes := [⟨some .unionAll, true, none, ⟨false, none, none⟩, intResults [1]⟩,
    ⟨none, false, none, ⟨false, none, none⟩,
      ⟨2, [none, none], [[.int 2, .int 3]], rfl, by decide, by simp⟩⟩]
  linked := by simp [Linked]

/-- It is not rejected, and the 3 is lost. -/
theorem widths_uneven :
    ((chainResult insertionSorter (fun n => .ok n.body) literalValue unevenChain).toOption.map
      fun res => (res.ncol, res.rows)) = some (1, [[.int 1], [.int 2]]) := by
  decide +kernel

end Tdb.Sql
