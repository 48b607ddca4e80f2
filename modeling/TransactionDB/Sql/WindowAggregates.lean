import TransactionDB.Sql.Windows

/-!
# TransactionDB — aggregates as window functions

COUNT, SUM, MIN and MAX of `eval_windows` in `src/sql/tdb_exec_select.inc`, over integers and NULLs, against
`accum_update` and `accum_result`, which evaluate the same call without OVER. A row should have the aggregate
of the rows of its partition whose key is not after its own (`frameOf`). With ORDER BY the source writes the
running aggregate up to the row itself, so peers behind the row are missing; SUM has no NULL for a frame
without values; and DISTINCT is not looked at. `aggregate_windows_iff` says when that makes no difference.
-/

namespace Tdb.Sql

open Distinct Sorting List

/-! ## What the accumulators of a window hold -/

/-- The fields that a kind of aggregate uses, after the values `vs`. -/
def Tallies (kind : WinKind) (vs : List Value) (a : WinAcc) : Prop :=
  match kind with
  | .count => a.cnt = vs.length
  | .sum => a.isInt = vs.all Value.isInt ∧ a.sumI = Int64.ofInt (vs.map Value.intPart).sum
  | .min => a.has = !vs.isEmpty ∧ a.mn = extreme .lt vs
  | .max => a.has = !vs.isEmpty ∧ a.mx = extreme .gt vs
  | _ => True

theorem tallies_new (kind : WinKind) : Tallies kind [] .new := by
  cases kind <;> simp [Tallies, WinAcc.new, extreme]

section Step

variable {lib : TypeLib} {kind : WinKind} {star : Bool} {vs : List Value} {a : WinAcc} {v : Value}

theorem Tallies.addSum (h : Tallies .sum vs a) (v : Value) : Tallies .sum (vs ++ [v]) (a.addSum v) := by
  obtain ⟨hint, hsum⟩ := h
  simp only [Tallies, all_append, map_append, sum_append, Int64.ofInt_add, ← hint, ← hsum]
  cases v <;> simp [WinAcc.addSum, Value.isInt, Value.intPart]

theorem Tallies.addMin (h : Tallies .min vs a) (v : Value) : Tallies .min (vs ++ [v]) (a.addMin v) := by
  obtain ⟨hhas, hmn⟩ := h
  simp only [Tallies, WinAcc.addMin, extreme_concat, hhas, hmn]
  cases vs <;> simp

theorem Tallies.addMax (h : Tallies .max vs a) (v : Value) : Tallies .max (vs ++ [v]) (a.addMax v) := by
  obtain ⟨hhas, hmx⟩ := h
  simp only [Tallies, WinAcc.addMax, extreme_concat, hhas, hmx]
  cases vs <;> simp

/-- A value that is not NULL, in the pass over the whole partition. -/
theorem Tallies.total (h : Tallies kind vs a) (hv : v ≠ .null) :
    Tallies kind (vs ++ [v]) (a.total kind star v) := by
  cases kind with
  | count => simpa [Tallies, WinAcc.total, hv] using h
  | sum =>
    have := Tallies.addSum h v
    simpa [Tallies, WinAcc.total, hv] using this
  | min =>
    have := Tallies.addMin h v
    simpa [Tallies, WinAcc.total, hv] using this
  | max =>
    have := Tallies.addMax h v
    simpa [Tallies, WinAcc.total, WinAcc.addMin, WinAcc.addMax, hv] using this
  | _ => exact trivial

/-- A value that is not NULL, in the running aggregate. -/
theorem Tallies.run (h : Tallies kind vs a) (hv : v ≠ .null) :
    Tallies kind (vs ++ [v]) (a.run lib kind star v) := by
  cases kind with
  | count => simpa [Tallies, WinAcc.run, hv] using h
  | sum => simpa [WinAcc.run, hv] using Tallies.addSum h v
  | min => simpa [WinAcc.run, hv] using Tallies.addMin h v
  | max => simpa [WinAcc.run, hv] using Tallies.addMax h v
  | _ => exact trivial

/-- NULL is passed over; `*` is never NULL. -/
theorem total_null (kind : WinKind) (a : WinAcc) : a.total kind false .null = a := by
  cases kind <;> simp [WinAcc.total]

theorem run_null (lib : TypeLib) (kind : WinKind) (a : WinAcc) : a.run lib kind false .null = a := by
  cases kind <;> simp [WinAcc.run]

theorem nonNull_concat (vals : List Value) (v : Value) :
    nonNull (vals ++ [v]) = if v = .null then nonNull vals else nonNull vals ++ [v] := by
  rw [nonNull, filter_append]
  split
  · next h => simp [h, nonNull]
  · next h => simp [h, nonNull]

/-- **After any values, an accumulator holds those that are not NULL.** -/
theorem foldl_tallies {add : WinAcc → Value → WinAcc}
    (hadd : ∀ {vs a v}, Tallies kind vs a → v ≠ .null → Tallies kind (vs ++ [v]) (add a v)) {vals : List Value}
    (hnull : .null ∈ vals → ∀ a, add a .null = a) : Tallies kind (nonNull vals) (vals.foldl add .new) := by
  induction vals using List.reverseRecOn with
  | nil => exact tallies_new kind
  | append_singleton vals v ih =>
    have hrest := ih fun h => hnull (mem_append_left _ h)
    rw [foldl_append, foldl_cons, foldl_nil, nonNull_concat]
    by_cases hv : v = .null
    · subst hv
      rw [hnull (by simp), if_pos rfl]
      exact hrest
    · rw [if_neg hv]
      exact hadd hrest hv

end Step

/-- The value that the source makes of what it has read. -/
def readValue (kind : WinKind) (vs : List Value) : Value :=
  match kind with
  | .count => .int (Int64.ofNat vs.length)
  | .sum => .int (Int64.ofInt (vs.map Value.intPart).sum)
  | .min => extreme .lt vs
  | .max => extreme .gt vs
  | _ => .null

/-- An aggregate in the sense of this module. -/
def WinKind.ofInts (kind : WinKind) : Prop := kind = .count ∨ kind = .sum ∨ kind = .min ∨ kind = .max

theorem value_of_tallies {kind : WinKind} (hkind : kind.ofInts) {vs : List Value} {a : WinAcc}
    (h : Tallies kind vs a) (hint : ∀ v ∈ vs, Value.isInt v) : a.value kind = readValue kind vs := by
  have hbound : ∀ {dir : Ordering} {m : Value}, a.has = !vs.isEmpty → m = extreme dir vs →
      (if a.has then m else .null) = extreme dir vs := by
    intro dir m hhas hm
    rw [hhas, hm]
    cases vs <;> simp [extreme]
  rcases hkind with rfl | rfl | rfl | rfl
  · simp only [WinAcc.value, readValue, show a.cnt = vs.length from h]
  · obtain ⟨hisint, hsum⟩ := h
    rw [WinAcc.value, hisint, hsum, if_pos (all_eq_true.mpr hint)]
    rfl
  · exact hbound h.1 h.2
  · exact hbound h.1 h.2

/-! ## What is read, and what should be -/

section Frames

variable {ρ : Type} {lib : TypeLib} {ev : ρ → Expr → Value} {w : WinCall} {rows : List ρ}

/-- The rows of the partition whose key of ORDER BY is not after that of the row. -/
def frameOf (w : WinCall) (xs : List (WinRow ρ)) (x : WinRow ρ) : List (WinRow ρ) :=
  (partitionOf w xs x).filter fun y => peerCmp w y x ≠ .gt

/-- The call without OVER, on the rows of the frame. -/
def frameAggregate (lib : TypeLib) (ev : ρ → Expr → Value) (w : WinCall) (rows : List ρ) (x : WinRow ρ) :
    Value :=
  accumResult w.call (accumRun lib w.call ((frameOf w (winRows ev w rows) x).map fun y => ev y.row))

/-- The values that aggregate counts. -/
def frameVals (w : WinCall) (xs : List (WinRow ρ)) (x : WinRow ρ) : List Value :=
  let vals := nonNull ((frameOf w xs x).map WinRow.arg)
  if w.call.distinct ∧ ¬w.starArg then firsts sameValue vals else vals

/-- The values that the walk has read when it writes the value of a row: with ORDER BY those up to the row,
without it those of the whole partition. -/
def readVals (w : WinCall) (front : List (WinRow ρ)) (x : WinRow ρ) (behind : List (WinRow ρ)) : List Value :=
  nonNull ((if w.order.isEmpty then front ++ x :: behind else front ++ [x]).map WinRow.arg)

/-- COUNT, SUM, MIN or MAX of integers and NULLs, or COUNT(*). -/
structure IntAggregate (ev : ρ → Expr → Value) (w : WinCall) (rows : List ρ) : Prop where
  named : w.call.isNamed "count" ∨ w.call.isNamed "sum" ∨ w.call.isNamed "min" ∨ w.call.isNamed "max"
  args : w.call.isNamed "count" ∧ w.call.args = [.star] ∨ ∃ arg more, w.call.args = arg :: more ∧ arg ≠ .star
  ints : IntOrNull (rows.map fun r => w.argValue (ev r))

/-- What was read and what counts come to one value. -/
def FrameAgrees (kind : WinKind) (read frame : List Value) : Prop :=
  match kind with
  | .count => Int64.ofNat read.length = Int64.ofNat frame.length
  | .sum => frame ≠ [] ∧
    Int64.ofInt (read.map Value.intPart).sum = Int64.ofInt (frame.map Value.intPart).sum
  | .min => (∀ j ∈ frame, ∃ i ∈ read, Value.intPart i ≤ Value.intPart j) ∧
    ∀ i ∈ read, ∃ j ∈ frame, Value.intPart j ≤ Value.intPart i
  | .max => (∀ j ∈ frame, ∃ i ∈ read, Value.intPart j ≤ Value.intPart i) ∧
    ∀ i ∈ read, ∃ j ∈ frame, Value.intPart i ≤ Value.intPart j
  | _ => True

/-- The value of the call without OVER. -/
def countedValue (kind : WinKind) (vs : List Value) : Value :=
  match kind with
  | .sum => if vs = [] then .null else readValue .sum vs
  | kind => readValue kind vs

/-! ## One row -/

/-- Two extremes of integers are one if neither list goes beyond the other. -/
theorem extreme_eq_iff {dir : Ordering} (hdir : dir ≠ .eq) {vs us : List Value}
    (hvs : ∀ v ∈ vs, Value.isInt v) (hus : ∀ u ∈ us, Value.isInt u) :
    extreme dir vs = extreme dir us ↔
      (∀ j ∈ us, ∃ i ∈ vs, compare (Value.intPart j) (Value.intPart i) ≠ dir) ∧
        ∀ i ∈ vs, ∃ j ∈ us, compare (Value.intPart i) (Value.intPart j) ≠ dir := by
  -- what is not beyond an entry that is not beyond a bound is not beyond the bound
  have htrans : ∀ {a b c : Int}, compare a b ≠ dir → compare b c ≠ dir → compare a c ≠ dir := by
    intro a b c hab hbc
    cases dir with
    | lt =>
      simp only [ne_eq, Int.compare_eq_lt, not_lt] at hab hbc ⊢
      omega
    | eq => exact absurd rfl hdir
    | gt =>
      simp only [ne_eq, Int.compare_eq_gt, not_lt] at hab hbc ⊢
      omega
  by_cases hvnil : vs = []
  · subst hvnil
    cases us with
    | nil => simp
    | cons u us =>
      obtain ⟨-, b, hb, -⟩ := extreme_int hdir (by simp) hus
      rw [hb]
      refine iff_of_false (by simp [extreme]) fun h => ?_
      obtain ⟨i, hi, -⟩ := h.1 u mem_cons_self
      cases hi
  by_cases hunil : us = []
  · subst hunil
    obtain ⟨v, hv⟩ := exists_mem_of_ne_nil vs hvnil
    obtain ⟨-, a, ha, -⟩ := extreme_int hdir hvnil hvs
    rw [ha]
    refine iff_of_false (by simp [extreme]) fun h => ?_
    obtain ⟨j, hj, -⟩ := h.2 v hv
    cases hj
  obtain ⟨hamem, a, ha, hbeyond⟩ := extreme_int hdir hvnil hvs
  obtain ⟨hbmem, b, hb, hbeyond'⟩ := extreme_int hdir hunil hus
  rw [ha] at hamem ⊢
  rw [hb] at hbmem ⊢
  have hfar : ∀ v ∈ vs, compare (Value.intPart v) a.toInt ≠ dir := by
    intro v hv
    obtain ⟨c, rfl⟩ := exists_int (hvs v hv)
    exact hbeyond c hv
  have hfar' : ∀ u ∈ us, compare (Value.intPart u) b.toInt ≠ dir := by
    intro u hu
    obtain ⟨c, rfl⟩ := exists_int (hus u hu)
    exact hbeyond' c hu
  rw [Value.int.injEq]
  constructor
  · rintro rfl
    exact ⟨fun j hj => ⟨_, hamem, hfar' j hj⟩, fun i hi => ⟨_, hbmem, hfar i hi⟩⟩
  · rintro ⟨hout, hback⟩
    obtain ⟨i, hi, hbi⟩ := hout _ hbmem
    obtain ⟨j, hj, haj⟩ := hback _ hamem
    have hba := htrans hbi (hfar i hi)
    have hab := htrans haj (hfar' j hj)
    refine Int64.toInt_inj.mp ?_
    simp only [Value.intPart] at hba hab
    cases dir with
    | lt =>
      simp only [ne_eq, Int.compare_eq_lt, not_lt] at hba hab
      omega
    | eq => exact absurd rfl hdir
    | gt =>
      simp only [ne_eq, Int.compare_eq_gt, not_lt] at hba hab
      omega

/-- **What was read gives the right value exactly if it agrees with what counts.** -/
theorem readValue_eq_iff {kind : WinKind} (hkind : kind.ofInts) {read frame : List Value}
    (hread : ∀ v ∈ read, Value.isInt v) (hframe : ∀ v ∈ frame, Value.isInt v) :
    readValue kind read = countedValue kind frame ↔ FrameAgrees kind read frame := by
  rcases hkind with rfl | rfl | rfl | rfl
  · simp only [readValue, countedValue, FrameAgrees, Value.int.injEq]
  · simp only [countedValue, FrameAgrees]
    by_cases hnone : frame = []
    · simp [hnone, readValue]
    · simp [hnone, readValue]
  · have h := @extreme_eq_iff .lt (by decide) _ _ hread hframe
    simp only [ne_eq, Int.compare_eq_lt, not_lt] at h
    exact h
  · have h := @extreme_eq_iff .gt (by decide) _ _ hread hframe
    simp only [ne_eq, Int.compare_eq_gt, not_lt] at h
    exact h

/-- The kind by the name, and what the call without OVER comes to. -/
theorem classify_named {call : AggCall}
    (h : call.isNamed "count" ∨ call.isNamed "sum" ∨ call.isNamed "min" ∨ call.isNamed "max") :
    ∃ kind : WinKind, classifyWin call = some kind ∧ kind.ofInts ∧ (call.isNamed "count" → kind = .count) ∧
      ∀ (lib : TypeLib) (evs : List (Expr → Value)), call.countsRows = false →
        (∀ v ∈ call.counted evs, Value.isInt v) →
        accumResult call (accumRun lib call evs) = countedValue kind (call.counted evs) := by
  have hholds := fun (lib : TypeLib) (evs : List (Expr → Value)) (hrows : call.countsRows = false) =>
    accumRun_holds lib hrows evs
  rcases h with h | h | h | h
  · refine ⟨.count, ?_, Or.inl rfl, fun _ => rfl, fun lib evs hrows _ => ?_⟩
    · have hother := @isNamed_others call _ h ["row_number", "rank", "dense_rank", "ntile"] (by decide +kernel)
      simp [classifyWin, hother, h]
    · rw [accumResult_count h, (hholds lib evs hrows).count]
      rfl
  · have hother := @isNamed_others call _ h ["row_number", "rank", "dense_rank", "ntile", "count"]
      (by decide +kernel)
    refine ⟨.sum, by simp [classifyWin, hother, h], Or.inr (Or.inl rfl), by simp [hother], ?_⟩
    intro lib evs hrows hint
    rw [accumResult_sum h, (hholds lib evs hrows).count, (hholds lib evs hrows).sumIsInt,
      (hholds lib evs hrows).isum, if_pos (all_eq_true.mpr hint)]
    simp only [length_eq_zero_iff]
    rfl
  · have hother := @isNamed_others call _ h
      ["row_number", "rank", "dense_rank", "ntile", "count", "sum", "total", "avg"] (by decide +kernel)
    refine ⟨.min, by simp [classifyWin, hother, h], Or.inr (Or.inr (Or.inl rfl)), by simp [hother], ?_⟩
    intro lib evs hrows _
    rw [accumResult_min h, (hholds lib evs hrows).has, (hholds lib evs hrows).mn]
    cases call.counted evs <;> simp [countedValue, readValue, extreme]
  · have hother := @isNamed_others call _ h
      ["row_number", "rank", "dense_rank", "ntile", "count", "sum", "total", "avg", "min"] (by decide +kernel)
    refine ⟨.max, by simp [classifyWin, hother, h], Or.inr (Or.inr (Or.inr rfl)), by simp [hother], ?_⟩
    intro lib evs hrows _
    rw [accumResult_max h, (hholds lib evs hrows).has, (hholds lib evs hrows).mx]
    cases call.counted evs <;> simp [countedValue, readValue, extreme]

/-! ## The rows of a window -/

section

variable (h : IntAggregate ev w rows)

include h

/-- The arguments of rows are integers and NULLs, and with `*` they are not NULL. -/
theorem IntAggregate.arg {x : WinRow ρ} (hx : x ∈ winRows ev w rows) :
    (x.arg = .null ∨ Value.isInt x.arg) ∧ (w.starArg → x.arg ≠ .null) := by
  obtain ⟨r, hr, heq⟩ := exists_row hx
  have harg : x.arg = w.argValue (ev r) := by rw [heq]; rfl
  rw [harg]
  refine ⟨h.ints _ (mem_map_of_mem hr), fun hstar => ?_⟩
  unfold WinCall.starArg at hstar
  unfold WinCall.argValue
  split at hstar
  · next hargs => simp [hargs]
  · cases hstar

section

variable {l : List (WinRow ρ)} (hl : ∀ x ∈ l, x ∈ winRows ev w rows)

include hl

theorem IntAggregate.isInt :
    ∀ v ∈ nonNull (l.map WinRow.arg), Value.isInt v := by
  refine IntOrNull.isInt fun v hv => ?_
  obtain ⟨x, hx, rfl⟩ := mem_map.mp hv
  exact (h.arg (hl x hx)).1

/-- A NULL among the arguments is passed over, since it is not a `*`. -/
theorem IntAggregate.starArg_of_null (hnull : .null ∈ l.map WinRow.arg) : w.starArg = false := by
  obtain ⟨x, hx, hxnull⟩ := mem_map.mp hnull
  by_contra hstar
  exact (h.arg (hl x hx)).2 (by simpa using hstar) hxnull

theorem winTotals_tallies (kind : WinKind) :
    Tallies kind (nonNull (l.map WinRow.arg)) (winTotals w kind l) := by
  have hfold : winTotals w kind l = (l.map WinRow.arg).foldl (WinAcc.total kind w.starArg) .new := by
    rw [winTotals, foldl_map]
  rw [hfold]
  refine foldl_tallies Tallies.total fun hnull a => ?_
  rw [h.starArg_of_null hl hnull, total_null]

theorem winState_tallies (horder : w.order ≠ []) (lib : TypeLib) (kind : WinKind) :
    Tallies kind (nonNull (l.map WinRow.arg)) (winState lib w kind l).acc := by
  have hfold : (winState lib w kind l).acc =
      (l.map WinRow.arg).foldl (WinAcc.run lib kind w.starArg) .new := by
    clear hl
    induction l using List.reverseRecOn with
    | nil => rfl
    | append_singleton l x ih =>
      rw [winState_concat, map_append, foldl_append, ← ih, winStep, if_neg (by simpa using horder)]
      rfl
  rw [hfold]
  refine foldl_tallies Tallies.run fun hnull a => ?_
  rw [h.starArg_of_null hl hnull, run_null]

end

end

theorem Walked.mem {x : WinRow ρ} {front behind : List (WinRow ρ)} (h : Walked ev w rows x front behind) :
    ∀ y ∈ front ++ x :: behind, y ∈ winRows ev w rows := by
  intro y hy
  have hflat : y ∈ insertionSort (winCmp w) (winRows ev w rows) := by
    rw [← flatten_runs (fun a b => partCmp w a b = .eq) (insertionSort _ _)]
    exact mem_flatten_of_mem h hy
  exact (insertionSort_perm _).subset hflat

/-- **The source writes the value of what it has read.** -/
theorem evalWindow_read (lib : TypeLib) (h : IntAggregate ev w rows) {kind : WinKind} (hkind : kind.ofInts)
    {x : WinRow ρ} {front behind : List (WinRow ρ)} (hwalked : Walked ev w rows x front behind) :
    (evalWindow lib ev w kind rows)[x.idx]? = some (readValue kind (readVals w front x behind)) := by
  have hmem : ∀ y ∈ front ++ [x], y ∈ winRows ev w rows := fun y hy => hwalked.mem y (by
    rw [append_cons]
    exact mem_append_left _ hy)
  have hvalue : ∀ (totals : WinAcc) (sz : Nat) (s : WinState), winValue w kind totals sz s x =
      if w.order.isEmpty then totals.value kind else s.acc.value kind := by
    intro totals sz s
    rcases hkind with rfl | rfl | rfl | rfl <;> rfl
  rw [evalWindow_walked lib kind hwalked, hvalue, readVals]
  by_cases horder : w.order = []
  · rw [if_pos (by simp [horder]), if_pos (by simp [horder])]
    rw [value_of_tallies hkind (winTotals_tallies h hwalked.mem kind) (h.isInt hwalked.mem)]
  · rw [if_neg (by simpa using horder), if_neg (by simpa using horder)]
    rw [value_of_tallies hkind (winState_tallies h hmem horder lib kind) (h.isInt hmem)]

theorem frameOf_mem {x : WinRow ρ} :
    ∀ y ∈ frameOf w (winRows ev w rows) x, y ∈ winRows ev w rows :=
  fun _ hy => mem_of_mem_filter (mem_of_mem_filter hy)

theorem IntAggregate.isInt_frameVals (h : IntAggregate ev w rows) (x : WinRow ρ) :
    ∀ v ∈ frameVals w (winRows ev w rows) x, Value.isInt v := by
  intro v hv
  unfold frameVals at hv
  dsimp only at hv
  split at hv
  · exact h.isInt frameOf_mem v (mem_of_mem_firsts hv)
  · exact h.isInt frameOf_mem v hv

section

variable {arg : Expr} {more : List Expr} (hargs : w.call.args = arg :: more) (hstar : arg ≠ .star)

include hargs hstar

/-- The values of the argument are those that the call without OVER has. -/
theorem argVals_eq {l : List (WinRow ρ)} (hl : ∀ x ∈ l, x ∈ winRows ev w rows) :
    w.call.argVals (l.map fun y => ev y.row) = l.map WinRow.arg := by
  simp only [AggCall.argVals, hargs, map_map]
  refine map_congr_left fun x hx => ?_
  obtain ⟨r, -, heq⟩ := exists_row (hl x hx)
  rw [heq]
  change ev r arg = w.argValue (ev r)
  rw [WinCall.argValue, hargs]
  cases arg with
  | star => exact absurd rfl hstar
  | _ => rfl

theorem starArg_of_ne : w.starArg = false ∧ w.call.countsRows = false := by
  rw [WinCall.starArg, AggCall.countsRows, hargs]
  cases arg with
  | star => exact absurd rfl hstar
  | _ => exact ⟨rfl, rfl⟩

end

/-- **The call without OVER has the value of what counts.** -/
theorem IntAggregate.frameAggregate (h : IntAggregate ev w rows) : ∃ kind : WinKind,
    classifyWin w.call = some kind ∧ kind.ofInts ∧ ∀ (lib : TypeLib) (x : WinRow ρ),
      Sql.frameAggregate lib ev w rows x = countedValue kind (frameVals w (winRows ev w rows) x) := by
  obtain ⟨kind, hkind, hints, hcount, hresult⟩ := classify_named h.named
  refine ⟨kind, hkind, hints, fun lib x => ?_⟩
  rw [Sql.frameAggregate]
  rcases h.args with ⟨hname, hargs⟩ | ⟨arg, more, hargs, hstar⟩
  · -- COUNT(*) counts rows, none of which has a NULL here
    have hstar : w.starArg = true := by rw [WinCall.starArg, hargs]
    have hall : nonNull ((frameOf w (winRows ev w rows) x).map WinRow.arg) =
        (frameOf w (winRows ev w rows) x).map WinRow.arg := by
      refine filter_eq_self.mpr fun v hv => ?_
      obtain ⟨y, hy, rfl⟩ := mem_map.mp hv
      simpa using (h.arg (frameOf_mem y hy)).2 hstar
    have hvals : (frameVals w (winRows ev w rows) x).length = (frameOf w (winRows ev w rows) x).length := by
      rw [frameVals, if_neg (by simp [hstar]), hall, length_map]
    have hrows : w.call.countsRows = true := by rw [AggCall.countsRows, hargs]
    rw [accumResult_count hname, accumRun_countsRows lib hrows, length_map, hcount hname, ← hvals]
    rfl
  · obtain ⟨hnostar, hrows⟩ := starArg_of_ne hargs hstar
    have hvals : frameVals w (winRows ev w rows) x =
        w.call.counted ((frameOf w (winRows ev w rows) x).map fun y => ev y.row) := by
      rw [counted_eq, argVals_eq hargs hstar frameOf_mem, frameVals]
      simp [hnostar]
    rw [hvals]
    exact hresult lib _ hrows (hvals ▸ h.isInt_frameVals x)

/-- The values of one window are right exactly if, at each row, what was read agrees with what counts. -/
theorem evalWindow_aggregate_iff (lib : TypeLib) (h : IntAggregate ev w rows) {kind : WinKind}
    (hkind : classifyWin w.call = some kind) :
    (∀ x ∈ winRows ev w rows,
        (evalWindow lib ev w kind rows)[x.idx]? = some (Sql.frameAggregate lib ev w rows x)) ↔
      ∀ x front behind, Walked ev w rows x front behind →
        FrameAgrees kind (readVals w front x behind) (frameVals w (winRows ev w rows) x) := by
  obtain ⟨kind', hkind', hints, hright⟩ := h.frameAggregate
  obtain rfl : kind = kind' := Option.some.inj (hkind.symm.trans hkind')
  have hrow : ∀ {x front behind}, Walked ev w rows x front behind →
      ((evalWindow lib ev w kind rows)[x.idx]? = some (Sql.frameAggregate lib ev w rows x) ↔
        FrameAgrees kind (readVals w front x behind) (frameVals w (winRows ev w rows) x)) := by
    intro x front behind hwalked
    have hread : ∀ v ∈ readVals w front x behind, Value.isInt v := by
      refine h.isInt fun y hy => hwalked.mem y ?_
      split at hy
      · exact hy
      · rw [append_cons]
        exact mem_append_left _ hy
    rw [evalWindow_read lib h hints hwalked, hright lib x, Option.some.injEq]
    exact readValue_eq_iff hints hread (h.isInt_frameVals x)
  constructor
  · intro hall x front behind hwalked
    exact (hrow hwalked).mp (hall x (hwalked.mem x (by simp)))
  · intro hall x hx
    obtain ⟨front, behind, hwalked⟩ := exists_walked hx
    exact (hrow hwalked).mpr (hall x front behind hwalked)

end Frames

/-- The kind of the call; every window here has one. -/
def WinCall.kind (w : WinCall) : WinKind := (classifyWin w.call).getD .count

/-- Aggregates over windows are those of the frames exactly if, at each row, the values read up to it agree
with the values of its frame. -/
theorem aggregate_windows_iff {ρ : Type} (lib : TypeLib) {ev : ρ → Expr → Value} {rows : List ρ}
    {ws : List WinCall} (hws : ∀ w ∈ ws, IntAggregate ev w rows) :
    ∃ cols, evalWindows lib ev rows ws = .ok cols ∧
      (List.Forall₂ (fun w col => ∀ x ∈ winRows ev w rows,
          col[x.idx]? = some (frameAggregate lib ev w rows x)) ws cols ↔
        ∀ w ∈ ws, ∀ x front behind, Walked ev w rows x front behind →
          FrameAgrees w.kind (readVals w front x behind) (frameVals w (winRows ev w rows) x)) := by
  have hsome : ∀ w ∈ ws, (classifyWin w.call).isSome := by
    intro w hw
    obtain ⟨kind, hkind, -⟩ := (hws w hw).frameAggregate
    simp [hkind]
  obtain ⟨cols, hcols, hall⟩ := evalWindows_ok lib ev rows hsome
  refine ⟨cols, hcols, ?_⟩
  clear hcols hsome
  induction hall with
  | nil => simp
  | @cons w col ws cols hcol hrest ih =>
    obtain ⟨kind, hkind, rfl⟩ := hcol
    have hname : w.kind = kind := by rw [WinCall.kind, hkind]; rfl
    rw [List.forall₂_cons, forall_mem_cons, hname,
      evalWindow_aggregate_iff lib (hws w mem_cons_self) hkind,
      ih (forall_mem_cons.mp hws).2]

/-- `SUM(b) OVER (PARTITION BY a ORDER BY b DESC)` of four rows, of which two are peers. -/
theorem aggregate_windows_four :
    ∃ cols, evalWindows bareLib twoColumnEval fourRows [overAB "SUM" [.column none [98]]] = .ok cols ∧
      (List.Forall₂ (fun w col => ∀ x ∈ winRows twoColumnEval w fourRows,
          col[x.idx]? = some (frameAggregate bareLib twoColumnEval w fourRows x))
          [overAB "SUM" [.column none [98]]] cols ↔
        ∀ w ∈ [overAB "SUM" [.column none [98]]], ∀ x front behind,
          Walked twoColumnEval w fourRows x front behind →
          FrameAgrees w.kind (readVals w front x behind)
            (frameVals w (winRows twoColumnEval w fourRows) x)) := by
  refine aggregate_windows_iff bareLib fun w hw => ?_
  obtain rfl := mem_singleton.mp hw
  refine ⟨by decide +kernel, Or.inr ⟨.column none [98], [], rfl, by simp⟩, ?_⟩
  unfold IntOrNull
  decide +kernel

/-- The first row has the sum of the rows up to it, 12; with its peer the sum is 17. -/
theorem aggregate_windows_peers :
    evalWindow bareLib twoColumnEval (overAB "SUM" [.column none [98]]) .sum fourRows =
        [.int 12, .int 9, .int 7, .int 17] ∧
      (winRows twoColumnEval (overAB "SUM" [.column none [98]]) fourRows).map
          (frameAggregate bareLib twoColumnEval (overAB "SUM" [.column none [98]]) fourRows) =
        [.int 17, .int 9, .int 7, .int 17] := by
  decide +kernel

end Tdb.Sql
