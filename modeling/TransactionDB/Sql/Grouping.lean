import TransactionDB.Sql.Aggregate

/-!
# TransactionDB — grouping

The grouping of `exec_select_body` in `src/sql/tdb_exec_select.inc`, and `agg_materialize` and `agg_next`
of `src/sql/tdb_exec_stream.inc`. Both executors look for the first group whose key is equal to that of the
row, append a group if there is none, and give the row to the accumulators of its group. Without GROUP BY
all keys are empty; then there is a group even without rows.

The type of the rows and the evaluation of expressions on a row are parameters.

* `groupRows_eq`: after any rows, the groups are the kinds of keys in the order of their first rows, and the
  accumulators of a group have had the rows with its key.
* `grouping_correct`: what the aggregates then come to.
-/

namespace Tdb.Sql

open Distinct List

/-- `group`. -/
structure Group (ρ : Type) where
  key : List Value
  /-- The first row. -/
  rep : Option ρ
  acc : List Accum

/-- All columns of two keys compare equal. -/
def sameKey (a b : List Value) : Bool := (List.zipWith sameValue a b).all id

section

variable {ρ : Type} (lib : TypeLib) (ev : ρ → Expr → Value) (gkeys : List Expr) (aggs : List AggCall)

def groupKey (r : ρ) : List Value := gkeys.map (ev r)

/-- Two rows of one group. -/
def sameGroup (r s : ρ) : Bool := sameKey (groupKey ev gkeys r) (groupKey ev gkeys s)

/-- One row for each accumulator. -/
def accumRow (r : ρ) (acc : List Accum) : List Accum :=
  List.zipWith (fun call ac => accumUpdate lib call ac (ev r)) aggs acc

/-- The row goes to the first group with its key, or makes a new one. -/
def addRow (r : ρ) : List (Group ρ) → List (Group ρ)
  | [] => [⟨groupKey ev gkeys r, some r, accumRow lib ev aggs r (aggs.map fun _ => .new)⟩]
  | g :: gs =>
    if sameKey g.key (groupKey ev gkeys r) then { g with acc := accumRow lib ev aggs r g.acc } :: gs
    else g :: addRow r gs

def groupRows (rows : List ρ) : List (Group ρ) :=
  rows.foldl (fun gs r => addRow lib ev gkeys aggs r gs) []

/-- Aggregates without GROUP BY have a group even without rows. -/
def finishGroups (gs : List (Group ρ)) : List (Group ρ) :=
  if gs.isEmpty ∧ gkeys.isEmpty then [⟨[], none, aggs.map fun _ => .new⟩] else gs

/-- The groups of `exec_select_body`: the row that stands for each, and the values of the aggregates. -/
def selectGroups (rows : List ρ) : List (Option ρ × List Value) :=
  (finishGroups gkeys aggs (groupRows lib ev gkeys aggs rows)).map fun g =>
    (g.rep, List.zipWith accumResult aggs g.acc)

end

/-- The rows that `agg_next` returns: the columns of the row that stands for the group, NULL if there is
none, and the values of the aggregates. -/
def aggNextRows (lib : TypeLib) (ev : Row → Expr → Value) (gkeys : List Expr) (aggs : List AggCall)
    (gbase : Nat) (rows : List Row) : List Row :=
  (finishGroups gkeys aggs (groupRows lib ev gkeys aggs rows)).map fun g =>
    g.rep.getD (List.replicate gbase .null) ++ List.zipWith accumResult aggs g.acc

/-! ## The groups -/

section

variable {ρ : Type} {lib : TypeLib} {ev : ρ → Expr → Value} {gkeys : List Expr} {aggs : List AggCall}

/-- The rows of the group that a row stands for. -/
def classOf (ev : ρ → Expr → Value) (gkeys : List Expr) (rows : List ρ) (rep : ρ) : List ρ :=
  rows.filter (sameGroup ev gkeys rep)

/-- The group of a row, after some rows. -/
def groupOf (lib : TypeLib) (ev : ρ → Expr → Value) (gkeys : List Expr) (aggs : List AggCall)
    (rows : List ρ) (rep : ρ) : Group ρ :=
  ⟨groupKey ev gkeys rep, some rep,
    aggs.map fun call => accumRun lib call ((classOf ev gkeys rows rep).map ev)⟩

section

variable {rows : List ρ} {rep r : ρ}

theorem classOf_concat_of_same (h : sameGroup ev gkeys rep r) :
    classOf ev gkeys (rows ++ [r]) rep = classOf ev gkeys rows rep ++ [r] := by
  simp [classOf, filter_append, h]

theorem groupOf_concat_of_ne (h : sameGroup ev gkeys rep r = false) :
    groupOf lib ev gkeys aggs (rows ++ [r]) rep = groupOf lib ev gkeys aggs rows rep := by
  simp [groupOf, classOf, filter_append, h]

/-- A row of the group goes to each of its accumulators. -/
theorem groupOf_concat_of_same (h : sameGroup ev gkeys rep r) :
    groupOf lib ev gkeys aggs (rows ++ [r]) rep =
      { groupOf lib ev gkeys aggs rows rep with
        acc := accumRow lib ev aggs r (groupOf lib ev gkeys aggs rows rep).acc } := by
  simp only [groupOf, accumRow, classOf_concat_of_same h, map_append, map_cons, map_nil,
    accumRun_concat, zipWith_map_right, zipWith_self]

end

theorem addRow_groupOf (rows : List ρ) (y r : ρ) (gs : List (Group ρ)) :
    addRow lib ev gkeys aggs r (groupOf lib ev gkeys aggs rows y :: gs) =
      if sameGroup ev gkeys y r then
        { groupOf lib ev gkeys aggs rows y with
          acc := accumRow lib ev aggs r (groupOf lib ev gkeys aggs rows y).acc } :: gs
      else groupOf lib ev gkeys aggs rows y :: addRow lib ev gkeys aggs r gs :=
  rfl

/-- A row whose kind is there. -/
theorem addRow_of_mem {rows : List ρ} {r : ρ} : ∀ {reps : List ρ},
    (∃ y ∈ reps, sameGroup ev gkeys y r) →
    (reps.Pairwise fun x y => sameGroup ev gkeys x r → sameGroup ev gkeys y r = false) →
    addRow lib ev gkeys aggs r (reps.map (groupOf lib ev gkeys aggs rows)) =
      reps.map (groupOf lib ev gkeys aggs (rows ++ [r]))
  | [], h, _ => by simp at h
  | y :: reps, h, hpair => by
    obtain ⟨hhead, htail⟩ := pairwise_cons.mp hpair
    rw [map_cons, map_cons, addRow_groupOf]
    by_cases hy : sameGroup ev gkeys y r
    · -- the others are of other kinds
      rw [if_pos hy, groupOf_concat_of_same hy]
      congr 1
      exact map_congr_left fun z hz => (groupOf_concat_of_ne (hhead z hz hy)).symm
    · rw [if_neg hy, groupOf_concat_of_ne (by simpa using hy), addRow_of_mem ?_ htail]
      simpa [hy] using h

/-- A row of a new kind. -/
theorem addRow_of_new {rows : List ρ} {r : ρ} (hself : sameGroup ev gkeys r r)
    (hnew : classOf ev gkeys rows r = []) : ∀ {reps : List ρ},
    (∀ y ∈ reps, sameGroup ev gkeys y r = false) →
    addRow lib ev gkeys aggs r (reps.map (groupOf lib ev gkeys aggs rows)) =
      (reps ++ [r]).map (groupOf lib ev gkeys aggs (rows ++ [r]))
  | [], _ => by
    rw [nil_append, map_singleton, groupOf_concat_of_same hself]
    simp only [groupOf, hnew]
    rfl
  | y :: reps, h => by
    have hy : sameGroup ev gkeys y r = false := h y mem_cons_self
    rw [map_cons, addRow_groupOf, if_neg (by simp [hy]), cons_append, map_cons, groupOf_concat_of_ne hy,
      addRow_of_new hself hnew (forall_mem_cons.mp h).2]

/-- **The groups are the kinds of keys, in the order of their first rows.** -/
theorem groupRows_eq : ∀ {rows : List ρ}, EquivOn (sameGroup ev gkeys) rows →
    groupRows lib ev gkeys aggs rows =
      (firsts (sameGroup ev gkeys) rows).map (groupOf lib ev gkeys aggs rows) := by
  intro rows
  induction rows using List.reverseRecOn with
  | nil => exact fun _ => rfl
  | append_singleton rows r ih =>
    intro h
    have hrows : EquivOn (sameGroup ev gkeys) rows := h.mono fun x hx => mem_append_left _ hx
    have hmem : r ∈ rows ++ [r] := by simp
    rw [groupRows, foldl_append, foldl_cons, foldl_nil, ← groupRows, ih hrows,
      h.firsts_concat]
    have hfirst : ∀ y ∈ firsts (sameGroup ev gkeys) rows, y ∈ rows ++ [r] := fun y hy =>
      mem_append_left _ (mem_of_mem_firsts hy)
    split
    · next hold =>
      rw [← h.any_firsts, any_eq_true] at hold
      refine addRow_of_mem hold ((pairwise_firsts rows).imp_of_mem fun {x y} hx hy hxy hxr => ?_)
      rw [Bool.eq_false_iff] at hxy ⊢
      exact fun hyr => hxy (h.trans x (hfirst x hx) r hmem y (hfirst y hy) hxr
        (h.symm y (hfirst y hy) r hmem hyr))
    · next hnew =>
      rw [any_eq_true, not_exists] at hnew
      refine addRow_of_new (h.refl r hmem) ?_ fun y hy => ?_
      · refine filter_eq_nil_iff.mpr fun y hy hry => hnew y ⟨hy, ?_⟩
        exact h.symm r hmem y (mem_append_left _ hy) hry
      · rw [Bool.eq_false_iff]
        exact fun hyr => hnew y ⟨mem_of_mem_firsts hy, hyr⟩

end

/-! ## The aggregates -/

/-- The values that are not NULL. -/
def nonNull (vals : List Value) : List Value := vals.filter (· ≠ .null)

/-- Integers and NULLs. -/
def IntOrNull (vals : List Value) : Prop := ∀ v ∈ vals, v = .null ∨ Value.isInt v

/-- No sum of the values up to one of them overflows. -/
def SumFits (vals : List Value) : Prop :=
  ∀ k, -2 ^ 63 ≤ ((vals.take k).map Value.intPart).sum ∧ ((vals.take k).map Value.intPart).sum < 2 ^ 63

/-- The values of the argument. -/
def AggCall.argVals (call : AggCall) (rows : List (Expr → Value)) : List Value :=
  match call.args with
  | [] => []
  | arg :: _ => rows.map fun ev => ev arg

/-- What an aggregate of some rows is, by the values of its argument. -/
structure Aggregated (call : AggCall) (nrows : Nat) (vals : List Value) (v : Value) : Prop where
  countRows : call.isNamed "count" → call.countsRows → v = .int (Int64.ofNat nrows)
  count : call.isNamed "count" → call.countsRows = false → call.distinct = false →
    v = .int (Int64.ofNat (nonNull vals).length)
  countDistinct : call.isNamed "count" → call.countsRows = false → call.distinct →
    v = .int (Int64.ofNat (firsts sameValue (nonNull vals)).length)
  absent : call.isNamed "min" ∨ call.isNamed "max" ∨ call.isNamed "sum" → call.countsRows = false →
    nonNull vals = [] → v = .null
  min : call.isNamed "min" → call.countsRows = false → call.distinct = false → IntOrNull vals →
    nonNull vals ≠ [] → v ∈ vals ∧ ∃ i : Int64, v = .int i ∧ ∀ j : Int64, .int j ∈ vals → i.toInt ≤ j.toInt
  max : call.isNamed "max" → call.countsRows = false → call.distinct = false → IntOrNull vals →
    nonNull vals ≠ [] → v ∈ vals ∧ ∃ i : Int64, v = .int i ∧ ∀ j : Int64, .int j ∈ vals → j.toInt ≤ i.toInt
  sum : call.isNamed "sum" → call.countsRows = false → call.distinct = false → IntOrNull vals →
    SumFits vals → nonNull vals ≠ [] → ∃ i : Int64, v = .int i ∧ i.toInt = (vals.map Value.intPart).sum

theorem counted_eq (call : AggCall) (rows : List (Expr → Value)) :
    call.counted rows = if call.distinct then firsts sameValue (nonNull (call.argVals rows))
      else nonNull (call.argVals rows) := by
  obtain ⟨name, distinct, args⟩ := call
  cases args with
  | nil => cases distinct <;> rfl
  | cons arg more => rfl

/-- A call that counts rows counts each. -/
theorem accumRun_countsRows (lib : TypeLib) {call : AggCall} (h : call.countsRows)
    (rows : List (Expr → Value)) : (accumRun lib call rows).count = rows.length := by
  induction rows using List.reverseRecOn with
  | nil => rfl
  | append_singleton rows ev ih =>
    rw [accumRun_concat, accumUpdate, if_pos h, length_append, ih]
    rfl

theorem exists_int {v : Value} (h : Value.isInt v) : ∃ a, v = .int a := by
  cases v with
  | int a => exact ⟨a, rfl⟩
  | _ => cases h

/-- Of integers, the extreme one is an integer that no other is beyond. -/
theorem extreme_int {dir : Ordering} (hdir : dir ≠ .eq) : ∀ {vs : List Value}, vs ≠ [] →
    (∀ v ∈ vs, Value.isInt v) → extreme dir vs ∈ vs ∧ ∃ i : Int64, extreme dir vs = .int i ∧
      ∀ j : Int64, .int j ∈ vs → compare j.toInt i.toInt ≠ dir := by
  intro vs
  induction vs using List.reverseRecOn with
  | nil => exact fun h => absurd rfl h
  | append_singleton vs v ih =>
    intro _ hint
    obtain ⟨a, rfl⟩ := exists_int (hint v (by simp))
    have hself : compare a.toInt a.toInt ≠ dir := by
      rw [Int.compare_eq_eq.mpr rfl]
      exact hdir.symm
    rw [extreme_concat]
    by_cases hvs : vs = []
    · subst hvs
      refine ⟨by simp, a, rfl, fun j hj => ?_⟩
      simp only [nil_append, mem_singleton, Value.int.injEq] at hj
      rwa [hj]
    · obtain ⟨hmem, i, hi, hbeyond⟩ := ih hvs (forall_mem_append.mp hint).1
      have hcmp : valueCompare (.int a) (.int i) .binary = compare a.toInt i.toInt := rfl
      rw [if_neg (by simpa using hvs), hi, hcmp]
      rw [hi] at hmem
      split
      · next hlt =>
        -- what is beyond the new extreme was beyond the old one
        refine ⟨by simp, a, rfl, fun j hj => ?_⟩
        simp only [mem_append, mem_singleton, Value.int.injEq] at hj
        rcases hj with hj | rfl
        · intro hja
          refine hbeyond j hj ?_
          cases dir with
          | lt => exact Int.compare_eq_lt.mpr ((Int.compare_eq_lt.mp hja).trans (Int.compare_eq_lt.mp hlt))
          | eq => exact absurd rfl hdir
          | gt => exact Int.compare_eq_gt.mpr ((Int.compare_eq_gt.mp hlt).trans (Int.compare_eq_gt.mp hja))
        · exact hself
      · next hnot =>
        refine ⟨mem_append_left _ hmem, i, rfl, fun j hj => ?_⟩
        simp only [mem_append, mem_singleton, Value.int.injEq] at hj
        rcases hj with hj | rfl
        · exact hbeyond j hj
        · exact hnot

theorem mem_nonNull {vals : List Value} {v : Value} : v ∈ nonNull vals ↔ v ∈ vals ∧ v ≠ .null := by
  simp [nonNull]

theorem IntOrNull.isInt {vals : List Value} (h : IntOrNull vals) : ∀ v ∈ nonNull vals, Value.isInt v := by
  intro v hv
  obtain ⟨hmem, hne⟩ := mem_nonNull.mp hv
  exact (h v hmem).resolve_left hne

/-- NULL adds nothing. -/
theorem sum_nonNull : ∀ vals : List Value,
    ((nonNull vals).map Value.intPart).sum = (vals.map Value.intPart).sum
  | [] => rfl
  | v :: vals => by
    by_cases hv : v = .null
    · subst hv
      have hskip : nonNull (.null :: vals) = nonNull vals := by simp [nonNull]
      simp [hskip, sum_nonNull vals, Value.intPart]
    · have hkeep : nonNull (v :: vals) = v :: nonNull vals := by simp [nonNull, hv]
      rw [hkeep, map_cons, map_cons, sum_cons, sum_cons, sum_nonNull vals]

theorem firsts_eq_nil {α : Type} {same : α → α → Bool} {l : List α} (h : l = []) : firsts same l = [] := by
  rw [h]
  rfl

/-- The results of the functions, by what the accumulator holds. -/
theorem accumResult_count {call : AggCall} (h : call.isNamed "count") (ac : Accum) :
    accumResult call ac = .int (Int64.ofNat ac.count) := by
  rw [accumResult, if_pos h]

theorem accumResult_sum {call : AggCall} (h : call.isNamed "sum") (ac : Accum) :
    accumResult call ac = if ac.count = 0 then .null
      else if ac.sumIsInt then .int ac.isum else .real ac.sum.toBits := by
  have hother := @isNamed_others call _ h ["count"] (by decide +kernel)
  simp [accumResult, hother, h]

theorem accumResult_min {call : AggCall} (h : call.isNamed "min") (ac : Accum) :
    accumResult call ac = if ac.has then ac.mn else .null := by
  have hother := @isNamed_others call _ h ["count", "sum", "total", "avg"] (by decide +kernel)
  simp [accumResult, hother, h]

theorem accumResult_max {call : AggCall} (h : call.isNamed "max") (ac : Accum) :
    accumResult call ac = if ac.has then ac.mx else .null := by
  have hother := @isNamed_others call _ h ["count", "sum", "total", "avg", "min"] (by decide +kernel)
  simp [accumResult, hother, h]

/-- **The accumulator of some rows comes to the aggregate of the values of its argument.** -/
theorem accumRun_aggregated (lib : TypeLib) (call : AggCall) (rows : List (Expr → Value)) :
    Aggregated call rows.length (call.argVals rows) (accumResult call (accumRun lib call rows)) := by
  have hcounted := counted_eq call rows
  constructor
  · intro hname hrows
    rw [accumResult_count hname, accumRun_countsRows lib hrows]
  · intro hname hrows hdist
    rw [accumResult_count hname, (accumRun_holds lib hrows rows).count, hcounted, if_neg (by simp [hdist])]
  · intro hname hrows hdist
    rw [accumResult_count hname, (accumRun_holds lib hrows rows).count, hcounted, if_pos hdist]
  · intro hname hrows hnone
    have hholds := accumRun_holds lib hrows rows
    rw [hcounted, hnone, firsts_eq_nil rfl, ite_self] at hholds
    rcases hname with hname | hname | hname
    · simp [accumResult_min hname, hholds.has]
    · simp [accumResult_max hname, hholds.has]
    · simp [accumResult_sum hname, hholds.count]
  · intro hname hrows hdist hint hsome
    have hholds := accumRun_holds lib hrows rows
    rw [hcounted, if_neg (by simp [hdist])] at hholds
    obtain ⟨hmem, i, hi, hleast⟩ := @extreme_int .lt (by decide) _ hsome hint.isInt
    rw [accumResult_min hname, hholds.has, hholds.mn, if_pos (by simpa using hsome)]
    refine ⟨(mem_nonNull.mp hmem).1, i, hi, fun j hj => ?_⟩
    exact Int.not_lt.mp fun hlt => hleast j (mem_nonNull.mpr ⟨hj, by simp⟩) (Int.compare_eq_lt.mpr hlt)
  · intro hname hrows hdist hint hsome
    have hholds := accumRun_holds lib hrows rows
    rw [hcounted, if_neg (by simp [hdist])] at hholds
    obtain ⟨hmem, i, hi, hmost⟩ := @extreme_int .gt (by decide) _ hsome hint.isInt
    rw [accumResult_max hname, hholds.has, hholds.mx, if_pos (by simpa using hsome)]
    refine ⟨(mem_nonNull.mp hmem).1, i, hi, fun j hj => ?_⟩
    exact Int.not_lt.mp fun hlt => hmost j (mem_nonNull.mpr ⟨hj, by simp⟩) (Int.compare_eq_gt.mpr hlt)
  · intro hname hrows hdist hint hfits hsome
    have hholds := accumRun_holds lib hrows rows
    rw [hcounted, if_neg (by simp [hdist])] at hholds
    have hne : ¬(nonNull (call.argVals rows)).length = 0 := by simpa using hsome
    have hall : (nonNull (call.argVals rows)).all Value.isInt = true := all_eq_true.mpr hint.isInt
    obtain ⟨hlo, hhi⟩ := hfits (call.argVals rows).length
    rw [take_length] at hlo hhi
    rw [accumResult_sum hname, hholds.count, if_neg hne, hholds.sumIsInt, if_pos hall, hholds.isum,
      sum_nonNull]
    refine ⟨_, rfl, ?_⟩
    rw [Int64.toInt_ofInt_of_le hlo hhi]

/-! ## Both executors -/

section

variable {ρ : Type} {ev : ρ → Expr → Value} {gkeys : List Expr}

theorem sameGroup_iff {r s : ρ} :
    sameGroup ev gkeys r s ↔ ∀ e ∈ gkeys, sameValue (ev r e) (ev s e) := by
  simp only [sameGroup, sameKey, groupKey, zipWith_map, zipWith_self, all_map,
    all_eq_true, Function.comp_apply, id]

/-- If equality is an equivalence on the values of the keys, it is one on the keys. -/
theorem equivOn_sameGroup {rows : List ρ} (h : EquivOn sameValue (rows.flatMap (groupKey ev gkeys))) :
    EquivOn (sameGroup ev gkeys) rows := by
  have hval : ∀ r ∈ rows, ∀ e ∈ gkeys, ev r e ∈ rows.flatMap (groupKey ev gkeys) := fun r hr e he =>
    mem_flatMap.mpr ⟨r, hr, mem_map_of_mem he⟩
  constructor
  · intro r hr
    exact sameGroup_iff.mpr fun e he => h.refl _ (hval r hr e he)
  · intro r hr s hs hrs
    rw [sameGroup_iff] at hrs ⊢
    exact fun e he => h.symm _ (hval r hr e he) _ (hval s hs e he) (hrs e he)
  · intro r hr s hs t ht hrs hst
    rw [sameGroup_iff] at hrs hst ⊢
    exact fun e he => h.trans _ (hval r hr e he) _ (hval s hs e he) _ (hval t ht e he) (hrs e he) (hst e he)

/-- The rows that a group is about; without a row to stand for it, there are none. -/
def members (ev : ρ → Expr → Value) (gkeys : List Expr) (rows : List ρ) : Option ρ → List ρ
  | none => []
  | some rep => classOf ev gkeys rows rep

/-- What the groups of some rows should be: one for each kind of key, in the order of the first rows, each
with the aggregates of its rows. Without GROUP BY there is one even if there are no rows. -/
structure Grouped (ev : ρ → Expr → Value) (gkeys : List Expr) (aggs : List AggCall) (rows : List ρ)
    (groups : List (Option ρ × List Value)) : Prop where
  reps : groups.map Prod.fst =
    if rows = [] ∧ gkeys = [] then [none] else (firsts (sameGroup ev gkeys) rows).map some
  values : ∀ g ∈ groups, List.Forall₂ (fun call v =>
    Aggregated call (members ev gkeys rows g.1).length
      (call.argVals ((members ev gkeys rows g.1).map ev)) v) aggs g.2

/-- The aggregates of some rows, call by call. -/
theorem forall₂_aggregated (lib : TypeLib) (aggs : List AggCall) (rows : List ρ) :
    List.Forall₂ (fun call v => Aggregated call rows.length (call.argVals (rows.map ev)) v) aggs
      (List.zipWith accumResult aggs (aggs.map fun call => accumRun lib call (rows.map ev))) := by
  rw [zipWith_map_right, zipWith_self, List.forall₂_map_right_iff, List.forall₂_same]
  intro call _
  have h := accumRun_aggregated lib call (rows.map ev)
  rwa [length_map] at h

section

variable (lib : TypeLib) (aggs : List AggCall) {rows : List ρ} (h : EquivOn (sameGroup ev gkeys) rows)

include lib aggs h

theorem groupRows_isEmpty :
    (groupRows lib ev gkeys aggs rows).isEmpty ↔ rows = [] := by
  rw [groupRows_eq h]
  cases rows with
  | nil | cons r rows => simp [firsts, keepNew]

theorem selectGroups_grouped :
    Grouped ev gkeys aggs rows (selectGroups lib ev gkeys aggs rows) := by
  by_cases hnone : rows = [] ∧ gkeys = []
  · obtain ⟨rfl, rfl⟩ := hnone
    constructor
    · rfl
    · intro g hg
      obtain rfl : g = (none, List.zipWith accumResult aggs (aggs.map fun _ => .new)) := by
        simpa [selectGroups, finishGroups, groupRows] using hg
      exact forall₂_aggregated lib aggs []
  · have hsel : selectGroups lib ev gkeys aggs rows = (firsts (sameGroup ev gkeys) rows).map fun rep =>
        (some rep, List.zipWith accumResult aggs
          (aggs.map fun call => accumRun lib call ((classOf ev gkeys rows rep).map ev))) := by
      have hgroups : ¬((groupRows lib ev gkeys aggs rows).isEmpty ∧ gkeys.isEmpty) := by
        rwa [groupRows_isEmpty lib aggs h, List.isEmpty_iff]
      rw [selectGroups, finishGroups, if_neg hgroups, groupRows_eq h, map_map]
      rfl
    rw [hsel]
    constructor
    · rw [map_map, if_neg hnone]
      rfl
    · intro g hg
      obtain ⟨rep, -, rfl⟩ := mem_map.mp hg
      exact forall₂_aggregated lib aggs _

end

end

/-- The groups of both executors are one for each kind of key, in the order of the first rows, and their
aggregates are those of their rows. -/
theorem grouping_correct (lib : TypeLib) {ev : Row → Expr → Value} {gkeys : List Expr}
    (aggs : List AggCall) (gbase : Nat) {rows : List Row}
    (h : EquivOn sameValue (rows.flatMap (groupKey ev gkeys))) :
    Grouped ev gkeys aggs rows (selectGroups lib ev gkeys aggs rows) ∧
      aggNextRows lib ev gkeys aggs gbase rows =
        (selectGroups lib ev gkeys aggs rows).map fun g =>
          g.1.getD (List.replicate gbase .null) ++ g.2 := by
  refine ⟨selectGroups_grouped lib aggs (equivOn_sameGroup h), ?_⟩
  rw [aggNextRows, selectGroups, map_map]
  rfl

/-- Columns `a` and `b`. -/
def twoColumnEval (r : Row) : Expr → Value
  | .column _ [97] => r.getD 0 .null
  | .column _ [98] => r.getD 1 .null
  | _ => .null

/-- `SUM(b)`. -/
def sumCall : AggCall := ⟨"SUM".toUTF8.toList, false, [.column none [98]]⟩

/-- `SELECT a, SUM(b) ... GROUP BY a`: two groups, of which one has only a NULL. -/
theorem grouping_correct_sum :
    aggNextRows bareLib twoColumnEval [.column none [97]] [sumCall] 2
        [[.text [120], .int 1], [.null, .null], [.text [120], .int 2]] =
      [[.text [120], .int 1, .int 3], [.null, .null, .null]] := by
  rw [(grouping_correct bareLib [sumCall] 2 (by constructor <;> decide +kernel)).2]
  decide +kernel

end Tdb.Sql
