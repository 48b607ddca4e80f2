import TransactionDB.Lib.Sorting
import TransactionDB.Sql.Grouping
import TransactionDB.Sql.SortKeys

/-!
# TransactionDB — window functions

`classify_win`, `orderkey_cmp` and `eval_windows` of `src/sql/tdb_exec_select.inc`. For each window call the
rows are sorted by the keys of PARTITION BY and then of ORDER BY, the sorted rows are cut where the partition
changes, and one pass over each partition writes a value for each of its rows. Evaluation of expressions and
the type of the rows are parameters.

* `evalWindow_walked`: the value of a row, by the rows of its partition in front of it and behind it.
* `ranking_windows`: ROW_NUMBER, RANK, DENSE_RANK and NTILE as numbers of rows.
-/

namespace Tdb.Sql

open Distinct Ranked Sorting List

/-- `EX_WINDOW`: a call with its `tdb_window`. -/
structure WinCall where
  call : AggCall
  partition : List Expr
  /-- Expressions, and whether they are DESC. -/
  order : List (Expr × Bool)

/-- `WK_ROW_NUMBER` and the others. -/
inductive WinKind where
  | rowNumber
  | rank
  | denseRank
  | ntile
  | count
  | sum
  | avg
  | min
  | max
  deriving DecidableEq

/-- `classify_win`. -/
def classifyWin (call : AggCall) : Option WinKind :=
  if call.isNamed "row_number" then some .rowNumber
  else if call.isNamed "rank" then some .rank
  else if call.isNamed "dense_rank" then some .denseRank
  else if call.isNamed "ntile" then some .ntile
  else if call.isNamed "count" then some .count
  else if call.isNamed "sum" ∨ call.isNamed "total" then some .sum
  else if call.isNamed "avg" then some .avg
  else if call.isNamed "min" then some .min
  else if call.isNamed "max" then some .max
  else none

namespace WinCall

variable (w : WinCall)

def desc : List Bool := w.order.map Prod.snd

def hasArg : Bool := !w.call.args.isEmpty

def starArg : Bool :=
  match w.call.args with
  | .star :: _ => true
  | _ => false

/-- The first argument; `*` is the constant 1. -/
def argValue (ev : Expr → Value) : Value :=
  match w.call.args with
  | [] => .null
  | .star :: _ => .int 1
  | arg :: _ => ev arg

end WinCall

/-- What is kept of a row for one window: `pkey[r]`, `okey[r]` and `argv[r]`. -/
structure WinRow (ρ : Type) where
  idx : Nat
  row : ρ
  pkey : List Value
  okey : List Value
  arg : Value

/-- The sums and bounds, once for a whole partition and once up to the current row. -/
structure WinAcc where
  cnt : Nat
  sumD : Float
  sumI : Int64
  isInt : Bool
  mn : Value
  mx : Value
  has : Bool

namespace WinAcc

def new : WinAcc := ⟨0, 0, 0, true, .null, .null, false⟩

def addSum (a : WinAcc) (v : Value) : WinAcc :=
  match v with
  | .real bits => { a with sumD := a.sumD + Float.ofBits bits, isInt := false }
  | .int i => { a with sumD := a.sumD + i.toFloat, sumI := a.sumI + i }
  | v => { a with sumD := a.sumD + v.asInt.toFloat, isInt := false }

def addMin (a : WinAcc) (v : Value) : WinAcc :=
  { a with
    mn := if a.has then (if valueCompare v a.mn .binary = .lt then v else a.mn) else v
    has := true }

def addMax (a : WinAcc) (v : Value) : WinAcc :=
  { a with
    mx := if a.has then (if valueCompare v a.mx .binary = .gt then v else a.mx) else v
    has := true }

/-- One row of the pass that is made ahead over the whole partition. -/
def total (kind : WinKind) (star : Bool) (a : WinAcc) (v : Value) : WinAcc :=
  match kind with
  | .count => if star ∨ v ≠ .null then { a with cnt := a.cnt + 1 } else a
  | .sum | .avg => if v = .null then a else { a.addSum v with cnt := a.cnt + 1 }
  | .min | .max => if v = .null then a else { a.addMin v with mx := (a.addMax v).mx }
  | _ => a

/-- The current row of the running aggregate. -/
def run (lib : TypeLib) (kind : WinKind) (star : Bool) (a : WinAcc) (v : Value) : WinAcc :=
  match kind with
  | .count => if star ∨ v ≠ .null then { a with cnt := a.cnt + 1 } else a
  | .sum => if v = .null then a else a.addSum v
  | .avg => if v = .null then a else { a with sumD := a.sumD + realOf lib v, cnt := a.cnt + 1 }
  | .min => if v = .null then a else a.addMin v
  | .max => if v = .null then a else a.addMax v
  | _ => a

def value (kind : WinKind) (a : WinAcc) : Value :=
  match kind with
  | .count => .int (Int64.ofNat a.cnt)
  | .sum => if a.isInt then .int a.sumI else .real a.sumD.toBits
  | .avg => if 0 < a.cnt then .real (a.sumD / a.cnt.toFloat).toBits else .null
  | .min => if a.has then a.mn else .null
  | .max => if a.has then a.mx else .null
  | _ => .null

end WinAcc

/-- The counters of the walk over a partition; `prev` is absent in front of its first row. -/
structure WinState where
  rowNum : Nat
  rank : Nat
  dense : Nat
  prev : Option (List Value)
  acc : WinAcc

def WinState.new : WinState := ⟨0, 0, 0, none, .new⟩

/-- NTILE: the bucket of the row `idx` of `sz`. -/
def ntileBucket (sz idx buckets : Nat) : Nat :=
  let small := sz / buckets
  let largeN := sz % buckets
  let largeSz := small + 1
  let boundary := largeN * largeSz
  if idx < boundary then idx / largeSz + 1
  else largeN + (idx - boundary) / (if small ≠ 0 then small else 1) + 1

section Model

variable {ρ : Type} (lib : TypeLib) (ev : ρ → Expr → Value) (w : WinCall) (kind : WinKind)

def winRow (idx : Nat) (r : ρ) : WinRow ρ :=
  ⟨idx, r, w.partition.map (ev r), w.order.map fun o => ev r o.1, w.argValue (ev r)⟩

def winRows (rows : List ρ) : List (WinRow ρ) := rows.mapIdx (winRow ev w)

def partCmp (a b : WinRow ρ) : Ordering := orderkeyCmp (w.partition.map fun _ => false) a.pkey b.pkey

def peerCmp (a b : WinRow ρ) : Ordering := orderkeyCmp w.desc a.okey b.okey

/-- The comparison of the insertion sort. -/
def winCmp (a b : WinRow ρ) : Ordering := (partCmp w a b).then (peerCmp w a b)

/-- The rank and the dense rank of the next row. -/
def nextRanks (s : WinState) (x : WinRow ρ) : Nat × Nat :=
  match s.prev with
  | none => (1, 1)
  | some prev =>
    if w.order.isEmpty then (1, 1)
    else if orderkeyCmp w.desc prev x.okey ≠ .eq then (s.rowNum + 1, s.dense + 1)
    else (s.rank, s.dense)

def winStep (s : WinState) (x : WinRow ρ) : WinState :=
  { rowNum := s.rowNum + 1
    rank := (nextRanks w s x).1
    dense := (nextRanks w s x).2
    prev := some x.okey
    acc := if w.order.isEmpty then s.acc else s.acc.run lib kind w.starArg x.arg }

/-- The argument of NTILE, which is at least 1. -/
def winBuckets (x : WinRow ρ) : Nat :=
  let buckets := if w.hasArg then x.arg.asInt else 1
  if buckets < 1 then 1 else buckets.toInt.toNat

/-- The value that is written for a row, after the counters have taken it. -/
def winValue (totals : WinAcc) (sz : Nat) (s : WinState) (x : WinRow ρ) : Value :=
  match kind with
  | .rowNumber => .int (Int64.ofNat s.rowNum)
  | .rank => .int (Int64.ofNat s.rank)
  | .denseRank => .int (Int64.ofNat s.dense)
  | .ntile => .int (Int64.ofNat (ntileBucket sz (s.rowNum - 1) (winBuckets w x)))
  | kind => if w.order.isEmpty then totals.value kind else s.acc.value kind

def winLoop (totals : WinAcc) (sz : Nat) : WinState → List (WinRow ρ) → List (Nat × Value)
  | _, [] => []
  | s, x :: xs =>
    (x.idx, winValue w kind totals sz (winStep lib w kind s x) x) ::
      winLoop totals sz (winStep lib w kind s x) xs

def winTotals (part : List (WinRow ρ)) : WinAcc :=
  part.foldl (fun a x => a.total kind w.starArg x.arg) .new

/-- One partition. -/
def winPartition (part : List (WinRow ρ)) : List (Nat × Value) :=
  winLoop lib w kind (winTotals w kind part) part.length .new part

/-- The values of one window, row by row. -/
def evalWindow (rows : List ρ) : List Value :=
  ((runs (fun a b => partCmp w a b = .eq) (insertionSort (winCmp w) (winRows ev w rows))).flatMap
    (winPartition lib w kind)).foldl (fun wv out => wv.set out.1 out.2) (List.replicate rows.length .null)

/-- `eval_windows`: the values of each window, or the message of the error. -/
def evalWindows (rows : List ρ) : List WinCall → Except Bytes (List (List Value))
  | [] => .ok []
  | w :: ws =>
    match classifyWin w.call with
    | none => .error ("unsupported window function: ".toUTF8.toList ++ w.call.name)
    | some kind =>
      match evalWindows rows ws with
      | .error msg => .error msg
      | .ok cols => .ok (evalWindow lib ev w kind rows :: cols)

end Model

/-! ## The order of a partition -/

section Order

variable {ρ : Type} {w : WinCall} {xs : List (WinRow ρ)} {x y z : WinRow ρ}

/-- The rows of the partition of a row. -/
def partitionOf (w : WinCall) (xs : List (WinRow ρ)) (x : WinRow ρ) : List (WinRow ρ) :=
  xs.filter fun y => partCmp w y x = .eq

/-- The key of ORDER BY is strictly before that of the other row. -/
def isBefore (w : WinCall) (y x : WinRow ρ) : Bool := peerCmp w y x = .lt

def isPeer (w : WinCall) (y x : WinRow ρ) : Bool := peerCmp w y x = .eq

/-- A row that is strictly before another one, or a peer of it that was given first. -/
def comesFirst (w : WinCall) (y x : WinRow ρ) : Bool := isBefore w y x || isPeer w y x && y.idx < x.idx

/-- How many rows of the partition come first. -/
def position (w : WinCall) (xs : List (WinRow ρ)) (x : WinRow ρ) : Nat :=
  (partitionOf w xs x).countP (comesFirst w · x)

theorem peerCmp_swap (w : WinCall) (y x : WinRow ρ) : peerCmp w y x = (peerCmp w x y).swap :=
  keyCmp_swap w.desc y.okey x.okey

theorem comesFirst_iff : comesFirst w y x ↔ peerCmp w y x = .lt ∨ peerCmp w y x = .eq ∧ y.idx < x.idx := by
  simp [comesFirst, isBefore, isPeer]

theorem comesFirst_asymm (h : comesFirst w y x) : comesFirst w x y = false := by
  rw [Bool.eq_false_iff, Ne, comesFirst_iff, peerCmp_swap w x y]
  rcases comesFirst_iff.mp h with hlt | ⟨heq, hidx⟩
  · simp [hlt]
  · simp only [heq, Ordering.swap_eq, reduceCtorEq, true_and, false_or]
    omega

theorem comesFirst_irrefl (w : WinCall) (x : WinRow ρ) : comesFirst w x x = false := by
  by_contra h
  have htrue : comesFirst w x x = true := by simpa using h
  exact h (comesFirst_asymm htrue)

/-- The rows of a partition in the order of the walk. -/
structure Lined (w : WinCall) (xs : List (WinRow ρ)) (x : WinRow ρ) (part : List (WinRow ρ)) : Prop where
  perm : part.Perm (partitionOf w xs x)
  sorted : part.Pairwise fun a b => comesFirst w a b

/-- A row comes behind all those in front of it, and behind no other. -/
theorem Lined.position {pre suf : List (WinRow ρ)} (h : Lined w xs x (pre ++ x :: suf)) :
    position w xs x = pre.length := by
  obtain ⟨-, hbehind, hcross⟩ := pairwise_append.mp h.sorted
  have hpre : pre.countP (comesFirst w · x) = pre.length :=
    countP_eq_length.mpr fun y hy => hcross y hy x mem_cons_self
  have hsuf : (x :: suf).countP (comesFirst w · x) = 0 := by
    refine countP_eq_zero.mpr fun y hy => ?_
    rcases mem_cons.mp hy with rfl | hy
    · simp [comesFirst_irrefl]
    · simp [comesFirst_asymm ((pairwise_cons.mp hbehind).1 y hy)]
  rw [Sql.position, ← h.perm.countP_eq, countP_append, hpre, hsuf, Nat.add_zero]

end Order

/-! ## The walk -/

section Walk

variable {ρ : Type} {lib : TypeLib} {ev : ρ → Expr → Value} {w : WinCall} {kind : WinKind}

/-- The counters after some rows of a partition. -/
def winState (lib : TypeLib) (w : WinCall) (kind : WinKind) (l : List (WinRow ρ)) : WinState :=
  l.foldl (winStep lib w kind) .new

theorem winState_concat (l : List (WinRow ρ)) (x : WinRow ρ) :
    winState lib w kind (l ++ [x]) = winStep lib w kind (winState lib w kind l) x := by
  rw [winState, foldl_append]
  rfl

theorem winState_rowNum (l : List (WinRow ρ)) : (winState lib w kind l).rowNum = l.length := by
  induction l using List.reverseRecOn with
  | nil => rfl
  | append_singleton l x ih =>
    rw [winState_concat, length_append, ← ih]
    rfl

theorem map_fst_winLoop (totals : WinAcc) (sz : Nat) : ∀ (s : WinState) (l : List (WinRow ρ)),
    (winLoop lib w kind totals sz s l).map Prod.fst = l.map WinRow.idx
  | _, [] => rfl
  | s, x :: l => by rw [winLoop, map_cons, map_fst_winLoop totals sz _ l, map_cons]

/-- The value of a row comes from the counters after the rows up to it. -/
theorem mem_winLoop (totals : WinAcc) (sz : Nat) (x : WinRow ρ) (suf : List (WinRow ρ)) :
    ∀ (pre : List (WinRow ρ)) (s : WinState),
    (x.idx, winValue w kind totals sz ((pre ++ [x]).foldl (winStep lib w kind) s) x) ∈
      winLoop lib w kind totals sz s (pre ++ x :: suf)
  | [], _ => mem_cons_self
  | y :: pre, s => mem_cons_of_mem _ (mem_winLoop totals sz x suf pre (winStep lib w kind s y))

/-- Values written at different places are all there in the end. -/
theorem getElem?_foldl_set {α : Type} : ∀ {writes : List (Nat × α)} {l : List α} {i : Nat} {v : α},
    (writes.map Prod.fst).Nodup → (∀ out ∈ writes, out.1 < l.length) → (i, v) ∈ writes →
    (writes.foldl (fun l out => l.set out.1 out.2) l)[i]? = some v := by
  intro writes
  induction writes using List.reverseRecOn with
  | nil => exact fun _ _ h => absurd h not_mem_nil
  | append_singleton writes out ih =>
    intro l i v hnodup hlt hmem
    have hlen : ∀ writes : List (Nat × α),
        (writes.foldl (fun l out => l.set out.1 out.2) l).length = l.length := by
      intro writes
      induction writes using List.reverseRecOn with
      | nil => rfl
      | append_singleton writes out ih => rw [foldl_append, foldl_cons, foldl_nil,
          length_set, ih]
    rw [map_append, nodup_append] at hnodup
    rw [foldl_append, foldl_cons, foldl_nil, getElem?_set]
    rcases mem_append.mp hmem with hmem | hmem
    · have hne : ¬out.1 = i := fun h =>
        hnodup.2.2 i (mem_map.mpr ⟨_, hmem, rfl⟩) out.1 (by simp) h.symm
      rw [if_neg hne]
      exact ih hnodup.1 (forall_mem_append.mp hlt).1 hmem
    · obtain rfl := mem_singleton.mp hmem
      rw [if_pos rfl, hlen, if_pos (hlt (i, v) (by simp))]

theorem map_idx_winRows (rows : List ρ) : (winRows ev w rows).map WinRow.idx = List.range rows.length := by
  refine ext_getElem (by simp [winRows]) fun i h₁ h₂ => ?_
  simp [winRows, winRow]

theorem pairwise_idx_winRows (rows : List ρ) :
    (winRows ev w rows).Pairwise fun a b => a.idx < b.idx := by
  rw [← pairwise_map, map_idx_winRows]
  exact pairwise_lt_range

/-- The values of the keys of a row. -/
def windowKeys (ev : ρ → Expr → Value) (w : WinCall) (r : ρ) : List Value :=
  w.partition.map (ev r) ++ w.order.map fun o => ev r o.1

theorem exists_row {rows : List ρ} {x : WinRow ρ} (hx : x ∈ winRows ev w rows) :
    ∃ r ∈ rows, x = winRow ev w x.idx r := by
  obtain ⟨i, hi, rfl⟩ := mem_mapIdx.mp hx
  exact ⟨rows[i], getElem_mem hi, rfl⟩

/-- Where the values of the keys are totally preordered, partitions and peers have ranks. -/
theorem exists_winRanks {rows : List ρ}
    (htotal : TotalOn (valueCompare · · .binary) (rows.flatMap (windowKeys ev w))) :
    ∃ p o : WinRow ρ → Nat, IsRank (partCmp w) (winRows ev w rows) p ∧
      IsRank (peerCmp w) (winRows ev w rows) o := by
  -- one argument for both keys
  have hkeys : ∀ {desc : List Bool} (key : WinRow ρ → List Value),
      (∀ r ∈ rows, ∀ i, (key (winRow ev w i r)).length = desc.length ∧
        ∀ v ∈ key (winRow ev w i r), v ∈ windowKeys ev w r) →
      ∃ rank : WinRow ρ → Nat, IsRank (fun a b => keyCmp desc (key a) (key b)) (winRows ev w rows) rank := by
    intro desc key hkey
    have htot : TotalOn (keyCmp desc) ((winRows ev w rows).map key) := by
      refine totalOn_keys (htotal.mono fun v hv => ?_) fun k hk => ?_
      · obtain ⟨k, hk, hv⟩ := mem_flatten.mp hv
        obtain ⟨x, hx, rfl⟩ := mem_map.mp hk
        obtain ⟨r, hr, heq⟩ := exists_row hx
        rw [heq] at hv
        exact mem_flatMap.mpr ⟨r, hr, (hkey r hr x.idx).2 v hv⟩
      · obtain ⟨x, hx, rfl⟩ := mem_map.mp hk
        obtain ⟨r, hr, heq⟩ := exists_row hx
        rw [heq]
        exact (hkey r hr x.idx).1
    obtain ⟨rank, hrank⟩ := exists_rank htot
    exact ⟨fun x => rank (key x), fun a ha b hb =>
      hrank _ (mem_map_of_mem ha) _ (mem_map_of_mem hb)⟩
  obtain ⟨p, hp⟩ := @hkeys (w.partition.map fun _ => false) WinRow.pkey fun r _ i =>
    ⟨by simp [winRow], fun v hv => mem_append_left _ hv⟩
  obtain ⟨o, ho⟩ := @hkeys w.desc WinRow.okey fun r _ i =>
    ⟨by simp [winRow, WinCall.desc], fun v hv => mem_append_right _ hv⟩
  exact ⟨p, o, hp, ho⟩

/-- The walk over a partition meets the rows `front`, then the row `x`, then the rows `behind`. -/
def Walked (ev : ρ → Expr → Value) (w : WinCall) (rows : List ρ) (x : WinRow ρ)
    (front behind : List (WinRow ρ)) : Prop :=
  front ++ x :: behind ∈
    runs (fun a b => partCmp w a b = .eq) (insertionSort (winCmp w) (winRows ev w rows))

section

variable {rows : List ρ} {x : WinRow ρ}

theorem exists_walked (hx : x ∈ winRows ev w rows) :
    ∃ front behind, Walked ev w rows x front behind := by
  have hsorted : x ∈ insertionSort (winCmp w) (winRows ev w rows) :=
    (insertionSort_perm _).mem_iff.mpr hx
  rw [← flatten_runs (fun a b => partCmp w a b = .eq) (insertionSort _ _)] at hsorted
  obtain ⟨part, hpart, hxpart⟩ := mem_flatten.mp hsorted
  obtain ⟨front, behind, rfl⟩ := append_of_mem hxpart
  exact ⟨front, behind, hpart⟩

/-- **The value of a row, by the rows that the walk meets.** -/
theorem evalWindow_walked (lib : TypeLib) (kind : WinKind) {front behind : List (WinRow ρ)}
    (h : Walked ev w rows x front behind) :
    (evalWindow lib ev w kind rows)[x.idx]? =
      some (winValue w kind (winTotals w kind (front ++ x :: behind)) (front ++ x :: behind).length
        (winState lib w kind (front ++ [x])) x) := by
  -- each row is written once
  have hidx : (((runs (fun a b => partCmp w a b = .eq) (insertionSort (winCmp w) (winRows ev w rows))).flatMap
      (winPartition lib w kind)).map Prod.fst).Perm (List.range rows.length) := by
    have hflat : ∀ parts : List (List (WinRow ρ)),
        (parts.flatMap (winPartition lib w kind)).map Prod.fst = parts.flatten.map WinRow.idx := by
      intro parts
      induction parts with
      | nil => rfl
      | cons part parts ih =>
        rw [flatMap_cons, map_append, ih, winPartition, map_fst_winLoop, flatten_cons,
          map_append]
    rw [hflat, flatten_runs, ← @map_idx_winRows ρ ev w rows]
    exact (insertionSort_perm _).map _
  refine getElem?_foldl_set (hidx.nodup_iff.mpr nodup_range) (fun out hout => ?_) ?_
  · rw [length_replicate, ← mem_range]
    exact hidx.subset (mem_map_of_mem hout)
  · exact mem_flatMap.mpr ⟨_, h, mem_winLoop _ _ x behind front .new⟩

/-- Where the keys are totally preordered, the walk meets the rows of the partition, in their order. -/
theorem Walked.lined (htotal : TotalOn (valueCompare · · .binary) (rows.flatMap (windowKeys ev w)))
    {front behind : List (WinRow ρ)} (h : Walked ev w rows x front behind) :
    Lined w (winRows ev w rows) x (front ++ x :: behind) := by
  obtain ⟨p, o, hp, ho⟩ := exists_winRanks htotal
  obtain ⟨rank, hrank, hle⟩ := hp.lex ho
  have hperm : (insertionSort (winCmp w) (winRows ev w rows)).Perm (winRows ev w rows) :=
    insertionSort_perm _
  have hmem : ∀ {y}, y ∈ insertionSort (winCmp w) (winRows ev w rows) → y ∈ winRows ev w rows :=
    fun hy => hperm.subset hy
  have hsorted := insertionSort_sorted hrank
  have hstable := insertionSort_stable hrank (pairwise_idx_winRows rows)
  have hsame : ∀ a ∈ insertionSort (winCmp w) (winRows ev w rows),
      ∀ b ∈ insertionSort (winCmp w) (winRows ev w rows), decide (partCmp w a b = .eq) = true ↔ p a = p b :=
    fun a ha b hb => by rw [decide_eq_true_eq, hp.eq_eq (hmem ha) (hmem hb)]
  have hparts : (insertionSort (winCmp w) (winRows ev w rows)).Pairwise fun a b => p a ≤ p b := by
    refine hsorted.imp_of_mem fun {a b} ha hb hab => ?_
    have := (hle a (hmem ha) b (hmem hb)).mp hab
    omega
  have hpart : front ++ x :: behind = (insertionSort (winCmp w) (winRows ev w rows)).filter (p · = p x) :=
    eq_filter_of_mem_runs hsame hparts h (by simp)
  have hx : x ∈ winRows ev w rows := by
    have hfilter : x ∈ front ++ x :: behind := by simp
    rw [hpart] at hfilter
    exact hmem (mem_of_mem_filter hfilter)
  rw [hpart]
  constructor
  · have hclass : partitionOf w (winRows ev w rows) x = (winRows ev w rows).filter (p · = p x) :=
      filter_congr fun y hy => by rw [decide_eq_decide, hp.eq_eq hy hx]
    rw [hclass]
    exact hperm.filter _
  · have hboth := (hsorted.and hstable).filter (p · = p x)
    refine hboth.imp_of_mem fun {a b} ha hb hab => ?_
    obtain ⟨ha, hpa⟩ := mem_filter.mp ha
    obtain ⟨hb, hpb⟩ := mem_filter.mp hb
    simp only [decide_eq_true_eq] at hpa hpb
    have hab' := (hle a (hmem ha) b (hmem hb)).mp hab.1
    have hba' := hle b (hmem hb) a (hmem ha)
    rw [comesFirst_iff, ho.eq_lt (hmem ha) (hmem hb), ho.eq_eq (hmem ha) (hmem hb)]
    by_cases hlt : o a < o b
    · exact Or.inl hlt
    · refine Or.inr ⟨by omega, hab.2 ?_⟩
      exact Nat.le_antisymm hab.1 (hba'.mpr (by omega))

end

end Walk

/-! ## Ranks -/

section Ranks

variable {ρ : Type} {lib : TypeLib} {w : WinCall} {kind : WinKind} {xs : List (WinRow ρ)} {x : WinRow ρ}
  {o : WinRow ρ → Nat}

section

variable (ho : IsRank (peerCmp w) xs o) {y x : WinRow ρ} (hy : y ∈ xs) (hx : x ∈ xs)

include ho hy hx

theorem isBefore_iff :
    isBefore w y x ↔ o y < o x := by
  rw [isBefore, decide_eq_true_eq, ho.eq_lt hy hx]

theorem isPeer_iff :
    isPeer w y x ↔ o y = o x := by
  rw [isPeer, decide_eq_true_eq, ho.eq_eq hy hx]

theorem comesFirst_le (h : comesFirst w y x) : o y ≤ o x := by
  rw [comesFirst_iff, ho.eq_lt hy hx, ho.eq_eq hy hx] at h
  omega

end

/-- Distinct keys, counted by their ranks. -/
theorem length_firsts_peers (ho : IsRank (peerCmp w) xs o) {l : List (WinRow ρ)} (hl : ∀ y ∈ l, y ∈ xs) :
    (firsts (isPeer w) l).length = (l.map o).toFinset.card :=
  length_firsts fun a ha b hb => isPeer_iff ho (hl a ha) (hl b hb)

/-- Behind rows that are not after it, a row adds its key to those before it. -/
theorem length_firsts_concat (ho : IsRank (peerCmp w) xs o) {pre : List (WinRow ρ)}
    (hmem : ∀ y ∈ pre ++ [x], y ∈ xs) (hle : ∀ y ∈ pre, o y ≤ o x) :
    (firsts (isPeer w) (pre ++ [x])).length =
      1 + (firsts (isPeer w) (pre.filter (isBefore w · x))).length := by
  have hmem' : ∀ y ∈ pre, y ∈ xs := (forall_mem_append.mp hmem).1
  have hbefore : ∀ y ∈ pre, (isBefore w y x ↔ o y < o x) := fun y hy =>
    isBefore_iff ho (hmem' y hy) (hmem x (by simp))
  have hkeys : ((pre ++ [x]).map o).toFinset =
      insert (o x) ((pre.filter (isBefore w · x)).map o).toFinset := by
    ext k
    simp only [map_append, map_cons, map_nil, toFinset_append, Finset.mem_union,
      mem_toFinset, mem_map, mem_filter, Finset.mem_insert, mem_singleton]
    constructor
    · rintro (⟨y, hy, rfl⟩ | rfl)
      · rcases Nat.lt_or_eq_of_le (hle y hy) with h | h
        · exact Or.inr ⟨y, ⟨hy, (hbefore y hy).mpr h⟩, rfl⟩
        · exact Or.inl h
      · exact Or.inl rfl
    · rintro (rfl | ⟨y, ⟨hy, -⟩, rfl⟩)
      · exact Or.inr rfl
      · exact Or.inl ⟨y, hy, rfl⟩
  have hnew : o x ∉ ((pre.filter (isBefore w · x)).map o).toFinset := by
    simp only [mem_toFinset, mem_map, mem_filter, not_exists, not_and]
    rintro y ⟨hy, hyx⟩ h
    have := (hbefore y hy).mp hyx
    omega
  rw [length_firsts_peers ho hmem, hkeys, Finset.card_insert_of_notMem hnew,
    length_firsts_peers ho fun y hy => hmem' y (mem_of_mem_filter hy), Nat.add_comm]

/-- Without ORDER BY all rows are peers. -/
theorem peerCmp_of_unordered (h : w.order = []) (y x : WinRow ρ) : peerCmp w y x = .eq := by
  rw [peerCmp, WinCall.desc, h]
  rfl

theorem nextRanks_concat (l : List (WinRow ρ)) (y x : WinRow ρ) :
    nextRanks w (winState lib w kind (l ++ [y])) x =
      if w.order.isEmpty then (1, 1)
      else if peerCmp w y x ≠ .eq then
        ((l ++ [y]).length + 1, (winState lib w kind (l ++ [y])).dense + 1)
      else ((winState lib w kind (l ++ [y])).rank, (winState lib w kind (l ++ [y])).dense) := by
  rw [← @winState_rowNum ρ lib w kind (l ++ [y]), winState_concat]
  rfl

/-- The counters after a row: the rows strictly before it, and their distinct keys. -/
theorem winState_ranks (ho : IsRank (peerCmp w) xs o) {pre : List (WinRow ρ)}
    (hmem : ∀ y ∈ pre ++ [x], y ∈ xs) (hsorted : (pre ++ [x]).Pairwise fun a b => comesFirst w a b) :
    (winState lib w kind (pre ++ [x])).rank = 1 + pre.countP (isBefore w · x) ∧
      (winState lib w kind (pre ++ [x])).dense = 1 + (firsts (isPeer w) (pre.filter (isBefore w · x))).length := by
  induction pre using List.reverseRecOn generalizing x with
  | nil => exact ⟨rfl, rfl⟩
  | append_singleton pre y ih =>
    obtain ⟨hpre, -, hcross⟩ := pairwise_append.mp hsorted
    have hmem' : ∀ z ∈ pre ++ [y], z ∈ xs := (forall_mem_append.mp hmem).1
    have hx : x ∈ xs := hmem x (by simp)
    have hy : y ∈ xs := hmem' y (by simp)
    obtain ⟨hrank, hdense⟩ := ih hmem' hpre
    rw [winState_concat]
    change (nextRanks w (winState lib w kind (pre ++ [y])) x).1 = _ ∧
      (nextRanks w (winState lib w kind (pre ++ [y])) x).2 = _
    rw [nextRanks_concat]
    by_cases hempty : w.order = []
    · have hnone : ∀ z ∈ pre ++ [y], ¬isBefore w z x = true := fun z _ => by
        simp [isBefore, peerCmp_of_unordered hempty]
      rw [countP_eq_zero.mpr hnone, filter_eq_nil_iff.mpr hnone, if_pos (by simp [hempty])]
      exact ⟨rfl, rfl⟩
    · rw [if_neg (by simpa using hempty)]
      have hbefore : ∀ z ∈ pre, o z ≤ o y := fun z hz =>
        comesFirst_le ho (hmem' z (mem_append_left _ hz)) hy
          ((pairwise_append.mp hpre).2.2 z hz y (by simp))
      by_cases hpeer : peerCmp w y x = .eq
      · -- a peer of the row in front: what is before one is before the other
        have hsame : o y = o x := (ho.eq_eq hy hx).mp hpeer
        have hcongr : ∀ z ∈ pre, isBefore w z x = isBefore w z y := by
          intro z hz
          have hz' := hmem' z (mem_append_left _ hz)
          rw [Bool.eq_iff_iff, isBefore_iff ho hz' hx, isBefore_iff ho hz' hy, hsame]
        have hlast : isBefore w y x = false := by simp [isBefore, hpeer]
        rw [if_neg (not_not.mpr hpeer), countP_append, filter_append, filter_congr hcongr,
          countP_congr fun z hz => by rw [hcongr z hz]]
        simp [hlast, hrank, hdense]
      · -- the first of its key: all rows in front are before it
        have hlt : o y < o x := by
          have := comesFirst_le ho hy hx (hcross y (by simp) x (by simp))
          have hne : o y ≠ o x := fun h => hpeer ((ho.eq_eq hy hx).mpr h)
          omega
        have hall : ∀ z ∈ pre ++ [y], isBefore w z x := by
          intro z hz
          refine (isBefore_iff ho (hmem' z hz) hx).mpr (Nat.lt_of_le_of_lt ?_ hlt)
          rcases mem_append.mp hz with hz | hz
          · exact hbefore z hz
          · rw [mem_singleton.mp hz]
        rw [if_pos hpeer, countP_eq_length.mpr hall, filter_eq_self.mpr hall, hdense,
          length_firsts_concat ho hmem' hbefore]
        exact ⟨Nat.add_comm _ _, Nat.add_comm _ _⟩

/-- No row from the current one on is before it. -/
theorem not_isBefore_of_lined {pre suf : List (WinRow ρ)} (h : Lined w xs x (pre ++ x :: suf)) :
    ∀ y ∈ x :: suf, ¬isBefore w y x = true := by
  obtain ⟨-, hbehind, -⟩ := pairwise_append.mp h.sorted
  intro y hy hyx
  have hfirst : comesFirst w y x = true := by simp [comesFirst, hyx]
  rcases mem_cons.mp hy with rfl | hy
  · rw [comesFirst_irrefl] at hfirst
    cases hfirst
  · have := comesFirst_asymm hfirst
    rw [(pairwise_cons.mp hbehind).1 y hy] at this
    cases this

theorem Lined.mem {part : List (WinRow ρ)} (h : Lined w xs x part) : ∀ y ∈ part, y ∈ xs := fun _ hy =>
  mem_of_mem_filter (h.perm.subset hy)

/-- The counters of the walk are numbers of rows of the whole partition. -/
theorem Lined.ranks (ho : IsRank (peerCmp w) xs o) {pre suf : List (WinRow ρ)}
    (h : Lined w xs x (pre ++ x :: suf)) :
    (winState lib w kind (pre ++ [x])).rank = 1 + (partitionOf w xs x).countP (isBefore w · x) ∧
      (winState lib w kind (pre ++ [x])).dense =
        1 + (firsts (isPeer w) ((partitionOf w xs x).filter (isBefore w · x))).length := by
  have hsplit : pre ++ x :: suf = (pre ++ [x]) ++ suf := by simp
  have hsorted : (pre ++ [x]).Pairwise fun a b => comesFirst w a b := by
    have := h.sorted
    rw [hsplit] at this
    exact (pairwise_append.mp this).1
  have hmem : ∀ y ∈ pre ++ [x], y ∈ xs := fun y hy => h.mem y (by rw [hsplit]; exact mem_append_left _ hy)
  obtain ⟨hrank, hdense⟩ := @winState_ranks ρ lib w kind xs x o ho pre hmem hsorted
  have hnone := not_isBefore_of_lined h
  have hfilter : ((partitionOf w xs x).filter (isBefore w · x)).Perm (pre.filter (isBefore w · x)) := by
    have := (h.perm.filter (isBefore w · x)).symm
    rwa [filter_append, filter_eq_nil_iff.mpr hnone, append_nil] at this
  have hpart : ∀ y ∈ (partitionOf w xs x).filter (isBefore w · x), y ∈ xs := fun y hy =>
    mem_of_mem_filter (mem_of_mem_filter hy)
  constructor
  · rw [hrank, countP_eq_length_filter, countP_eq_length_filter, hfilter.length_eq]
  · rw [hdense, length_firsts_peers ho hpart, length_firsts_peers ho fun y hy => hpart y (hfilter.mem_iff.mpr hy),
      toFinset_eq_of_perm _ _ (hfilter.map o)]

end Ranks

/-! ## NTILE -/

/-- The sizes of the `k` runs of `m` rows: the first `m % k` have one more. -/
def runSizes (m k : Nat) : List Nat :=
  List.replicate (m % k) ((m + k - 1) / k) ++ List.replicate (k - m % k) (m / k)

/-- The entry `i` is in the run `b`, counted from 1. -/
def InRun (sizes : List Nat) (i b : Nat) : Prop :=
  1 ≤ b ∧ b ≤ sizes.length ∧ (sizes.take (b - 1)).sum ≤ i ∧ i < (sizes.take b).sum

theorem ceil_div {m k : Nat} (hk : 0 < k) (h : 0 < m % k) : (m + k - 1) / k = m / k + 1 := by
  have hm := Nat.div_add_mod m k
  have hlt := Nat.mod_lt m hk
  have hmul : (m / k + 1) * k = k * (m / k) + k := by rw [Nat.add_mul, Nat.mul_comm, Nat.one_mul]
  refine Nat.div_eq_of_lt_le (by omega) ?_
  rw [Nat.add_mul (m / k + 1)]
  omega

/-- The rows of the first `j` runs. -/
theorem sum_take_runSizes {m k j : Nat} (hk : 0 < k) (hj : j ≤ k) :
    ((runSizes m k).take j).sum = j * (m / k) + min j (m % k) := by
  have hceil : min j (m % k) * ((m + k - 1) / k) = min j (m % k) * (m / k) + min j (m % k) := by
    rcases Nat.eq_zero_or_pos (m % k) with h | h
    · simp [h]
    · rw [ceil_div hk h, Nat.mul_add, Nat.mul_one]
  have hsplit : min j (m % k) * (m / k) + (j - m % k) * (m / k) = j * (m / k) := by
    rw [← Nat.add_mul]
    congr 1
    omega
  rw [runSizes, take_append, sum_append, take_replicate, take_replicate,
    sum_replicate, sum_replicate, length_replicate, smul_eq_mul, smul_eq_mul, hceil,
    Nat.min_eq_left (by omega : j - m % k ≤ k - m % k)]
  omega

theorem length_runSizes {m k : Nat} (hk : 0 < k) : (runSizes m k).length = k := by
  have hlt := Nat.mod_lt m hk
  rw [runSizes, length_append, length_replicate, length_replicate]
  omega

/-- **The bucket of NTILE is the run that the row is in.** -/
theorem ntileBucket_inRun {m k i : Nat} (hk : 0 < k) (hi : i < m) :
    InRun (runSizes m k) i (ntileBucket m i k) := by
  have hm : k * (m / k) + m % k = m := Nat.div_add_mod m k
  have hlt : m % k < k := Nat.mod_lt m hk
  -- the run by the number of runs in front of it
  suffices h : ∃ d < k, ntileBucket m i k = d + 1 ∧ d * (m / k) + min d (m % k) ≤ i ∧
      i < (d + 1) * (m / k) + min (d + 1) (m % k) by
    obtain ⟨d, hd, hbucket, hlo, hhi⟩ := h
    rw [InRun, length_runSizes hk, hbucket, Nat.add_sub_cancel, sum_take_runSizes hk hd.le,
      sum_take_runSizes hk hd]
    exact ⟨by omega, hd, hlo, hhi⟩
  unfold ntileBucket
  dsimp only
  split
  · next hfront =>
    have hd : i / (m / k + 1) < m % k := Nat.div_lt_of_lt_mul (by rwa [Nat.mul_comm])
    have hdiv := Nat.div_add_mod i (m / k + 1)
    have hmod : i % (m / k + 1) < m / k + 1 := Nat.mod_lt i (Nat.succ_pos _)
    generalize i / (m / k + 1) = d at *
    rw [Nat.add_mul, Nat.one_mul] at hdiv
    refine ⟨d, by omega, rfl, ?_, ?_⟩
    · rw [Nat.min_eq_left hd.le, Nat.mul_comm d]
      omega
    · rw [Nat.min_eq_left hd, Nat.add_mul, Nat.mul_comm d]
      omega
  · next hback =>
    -- the rows behind the greater runs; they are there only if the other runs are not empty
    have hq : m / k ≠ 0 := by
      intro hq
      rw [hq] at hm hback
      omega
    rw [if_pos hq]
    have hpos : 0 < m / k := Nat.pos_of_ne_zero hq
    have hrest : i - m % k * (m / k + 1) < (k - m % k) * (m / k) := by
      rw [Nat.sub_mul, Nat.mul_add]
      rw [Nat.mul_add] at hback
      omega
    have hd : (i - m % k * (m / k + 1)) / (m / k) < k - m % k :=
      Nat.div_lt_of_lt_mul (by rwa [Nat.mul_comm (m / k)])
    have hdiv := Nat.div_add_mod (i - m % k * (m / k + 1)) (m / k)
    have hmod := Nat.mod_lt (i - m % k * (m / k + 1)) hpos
    generalize (i - m % k * (m / k + 1)) / (m / k) = d at *
    rw [Nat.mul_add] at hback hdiv hmod
    refine ⟨m % k + d, by omega, rfl, ?_, ?_⟩
    · rw [Nat.min_eq_right (by omega), Nat.add_mul, Nat.mul_comm d]
      omega
    · rw [Nat.min_eq_right (by omega), Nat.add_mul, Nat.add_mul, Nat.mul_comm d]
      omega

/-! ## The ranking functions -/

section Ranking

variable {ρ : Type} {lib : TypeLib} {ev : ρ → Expr → Value} {w : WinCall} {rows : List ρ}

/-- What the values of a ranking function should be. -/
structure RankingOf (ev : ρ → Expr → Value) (w : WinCall) (rows : List ρ) (col : List Value) : Prop where
  rowNumber : classifyWin w.call = some .rowNumber → ∀ x ∈ winRows ev w rows,
    col[x.idx]? = some (.int (Int64.ofNat (1 + position w (winRows ev w rows) x)))
  /-- The row numbers of a partition are 1 and so on. -/
  bijective : ∀ x ∈ winRows ev w rows,
    ((partitionOf w (winRows ev w rows) x).map fun y => 1 + position w (winRows ev w rows) y).Perm
      (List.range' 1 (partitionOf w (winRows ev w rows) x).length)
  monotone : ∀ x ∈ winRows ev w rows, ∀ y ∈ partitionOf w (winRows ev w rows) x, isBefore w y x →
    position w (winRows ev w rows) y < position w (winRows ev w rows) x
  stable : ∀ x ∈ winRows ev w rows, ∀ y ∈ partitionOf w (winRows ev w rows) x, isPeer w y x →
    y.idx < x.idx → position w (winRows ev w rows) y < position w (winRows ev w rows) x
  rank : classifyWin w.call = some .rank → ∀ x ∈ winRows ev w rows,
    col[x.idx]? = some (.int (Int64.ofNat
      (1 + (partitionOf w (winRows ev w rows) x).countP (isBefore w · x))))
  denseRank : classifyWin w.call = some .denseRank → ∀ x ∈ winRows ev w rows,
    col[x.idx]? = some (.int (Int64.ofNat
      (1 + (firsts (isPeer w) ((partitionOf w (winRows ev w rows) x).filter (isBefore w · x))).length)))
  unordered : w.order = [] → classifyWin w.call = some .rank ∨ classifyWin w.call = some .denseRank →
    ∀ x ∈ winRows ev w rows, col[x.idx]? = some (.int 1)
  ntile : classifyWin w.call = some .ntile → w.hasArg → ∀ k : Int64, 1 ≤ k →
    (∀ r ∈ rows, w.argValue (ev r) = .int k) → ∀ x ∈ winRows ev w rows,
    ∃ b, col[x.idx]? = some (.int (Int64.ofNat b)) ∧
      InRun (runSizes (partitionOf w (winRows ev w rows) x).length k.toInt.toNat)
        (position w (winRows ev w rows) x) b

section

variable {xs part : List (WinRow ρ)} {p : WinRow ρ → Nat} (hp : IsRank (partCmp w) xs p)

include hp

/-- The order of the walk is that of every row of the partition. -/
theorem Lined.of_mem {x y : WinRow ρ} (hx : x ∈ xs) (h : Lined w xs x part) (hy : y ∈ part) :
    Lined w xs y part := by
  obtain ⟨hyxs, hyx⟩ := mem_filter.mp (h.perm.subset hy)
  have hsame : p y = p x := (hp.eq_eq hyxs hx).mp (by simpa using hyx)
  have hpart : partitionOf w xs y = partitionOf w xs x :=
    filter_congr fun z hz => by rw [decide_eq_decide, hp.eq_eq hz hyxs, hp.eq_eq hz hx, hsame]
  exact ⟨hpart ▸ h.perm, h.sorted⟩

/-- A row stands at its position. -/
theorem Lined.position_getElem {x : WinRow ρ} (hx : x ∈ xs) (h : Lined w xs x part) {i : Nat}
    (hi : i < part.length) :
    Sql.position w xs part[i] = i := by
  have hy := h.of_mem hp hx (getElem_mem hi)
  have hsplit : part.take i ++ part[i] :: part.drop (i + 1) = part := by
    rw [← drop_eq_getElem_cons hi, take_append_drop]
  have hpos := @Lined.position ρ w xs part[i] (part.take i) (part.drop (i + 1)) (by rwa [hsplit])
  rw [hpos, length_take, Nat.min_eq_left hi.le]

theorem position_lt_of_comesFirst {x y : WinRow ρ} (hx : x ∈ xs) (h : Lined w xs x part)
    (hxpart : x ∈ part) (hy : y ∈ partitionOf w xs x) (hfirst : comesFirst w y x) :
    position w xs y < position w xs x := by
  obtain ⟨i, hi, rfl⟩ := mem_iff_getElem.mp (h.perm.mem_iff.mpr hy)
  obtain ⟨j, hj, rfl⟩ := mem_iff_getElem.mp hxpart
  rw [h.position_getElem hp hx hi, h.position_getElem hp hx hj]
  -- otherwise the row would come first of the other one too
  by_contra hle
  rcases Nat.lt_or_eq_of_le (Nat.not_lt.mp hle) with hlt | heq
  · have hback := pairwise_iff_getElem.mp h.sorted j i hj hi hlt
    rw [comesFirst_asymm hback] at hfirst
    cases hfirst
  · subst heq
    rw [comesFirst_irrefl] at hfirst
    cases hfirst

end

theorem evalWindow_ranking (lib : TypeLib) {kind : WinKind} (hkind : classifyWin w.call = some kind)
    (htotal : TotalOn (valueCompare · · .binary) (rows.flatMap (windowKeys ev w))) :
    RankingOf ev w rows (evalWindow lib ev w kind rows) := by
  obtain ⟨p, o, hp, ho⟩ := exists_winRanks htotal
  have hat : ∀ {x}, x ∈ winRows ev w rows → ∃ pre suf, Lined w (winRows ev w rows) x (pre ++ x :: suf) ∧
      (evalWindow lib ev w kind rows)[x.idx]? =
        some (winValue w kind (winTotals w kind (pre ++ x :: suf)) (pre ++ x :: suf).length
          (winState lib w kind (pre ++ [x])) x) := by
    intro x hx
    obtain ⟨pre, suf, hwalked⟩ := exists_walked hx
    exact ⟨pre, suf, hwalked.lined htotal, evalWindow_walked lib kind hwalked⟩
  have hrank : classifyWin w.call = some .rank → ∀ x ∈ winRows ev w rows,
      (evalWindow lib ev w kind rows)[x.idx]? = some (.int (Int64.ofNat
        (1 + (partitionOf w (winRows ev w rows) x).countP (isBefore w · x)))) := by
    intro h x hx
    obtain rfl : kind = .rank := by simpa [hkind] using h
    obtain ⟨pre, suf, hlined, hval⟩ := hat hx
    rw [hval, ← (@Lined.ranks ρ lib w .rank _ x o ho pre suf hlined).1]
    rfl
  have hdense : classifyWin w.call = some .denseRank → ∀ x ∈ winRows ev w rows,
      (evalWindow lib ev w kind rows)[x.idx]? = some (.int (Int64.ofNat (1 + (firsts (isPeer w)
        ((partitionOf w (winRows ev w rows) x).filter (isBefore w · x))).length))) := by
    intro h x hx
    obtain rfl : kind = .denseRank := by simpa [hkind] using h
    obtain ⟨pre, suf, hlined, hval⟩ := hat hx
    rw [hval, ← (@Lined.ranks ρ lib w .denseRank _ x o ho pre suf hlined).2]
    rfl
  constructor
  · intro h x hx
    obtain rfl : kind = .rowNumber := by simpa [hkind] using h
    obtain ⟨pre, suf, hlined, hval⟩ := hat hx
    rw [hval, hlined.position, Nat.add_comm, winValue, winState_rowNum, length_append]
    rfl
  · intro x hx
    obtain ⟨pre, suf, hlined, -⟩ := hat hx
    refine (hlined.perm.map _).symm.trans (List.Perm.of_eq ?_)
    rw [← hlined.perm.length_eq]
    refine ext_getElem (by simp) fun i hi _ => ?_
    rw [length_map] at hi
    rw [getElem_map, getElem_range', hlined.position_getElem hp hx hi, Nat.one_mul]
  · intro x hx y hy hyx
    obtain ⟨pre, suf, hlined, -⟩ := hat hx
    exact position_lt_of_comesFirst hp hx hlined (by simp) hy (by simp [comesFirst, hyx])
  · intro x hx y hy hpeer hidx
    obtain ⟨pre, suf, hlined, -⟩ := hat hx
    exact position_lt_of_comesFirst hp hx hlined (by simp) hy (by simp [comesFirst, hpeer, hidx])
  · exact hrank
  · exact hdense
  · intro hempty hname x hx
    have hnone : ∀ y ∈ partitionOf w (winRows ev w rows) x, ¬isBefore w y x = true := fun y _ => by
      simp [isBefore, peerCmp_of_unordered hempty]
    rcases hname with h | h
    · rw [hrank h x hx, countP_eq_zero.mpr hnone]
      rfl
    · rw [hdense h x hx, filter_eq_nil_iff.mpr hnone]
      rfl
  · intro h harg k hk hconst x hx
    obtain rfl : kind = .ntile := by simpa [hkind] using h
    obtain ⟨pre, suf, hlined, hval⟩ := hat hx
    have hargx : x.arg = .int k := by
      obtain ⟨r, hr, heq⟩ := exists_row hx
      rw [heq]
      exact hconst r hr
    have hbuckets : winBuckets w x = k.toInt.toNat := by
      have hnot : ¬k < 1 := by
        rw [Int64.not_lt]
        exact hk
      simp only [winBuckets, harg, hargx, Value.asInt, if_true, if_neg hnot]
    have hpos : 0 < k.toInt.toNat := by
      have := Int64.le_iff_toInt_le.mp hk
      rw [Int64.toInt_one] at this
      omega
    have hidx : (winState lib w .ntile (pre ++ [x])).rowNum - 1 = pre.length := by
      rw [winState_rowNum, length_append, length_singleton, Nat.add_sub_cancel]
    rw [hval, hlined.position, ← hlined.perm.length_eq]
    refine ⟨_, rfl, ?_⟩
    rw [hidx, hbuckets]
    exact ntileBucket_inRun hpos (by simp)

end Ranking

theorem evalWindows_ok {ρ : Type} (lib : TypeLib) (ev : ρ → Expr → Value) (rows : List ρ) :
    ∀ {ws : List WinCall}, (∀ w ∈ ws, (classifyWin w.call).isSome) →
    ∃ cols, evalWindows lib ev rows ws = .ok cols ∧ List.Forall₂ (fun w col =>
      ∃ kind, classifyWin w.call = some kind ∧ col = evalWindow lib ev w kind rows) ws cols
  | [], _ => ⟨[], rfl, .nil⟩
  | w :: ws, h => by
    obtain ⟨kind, hkind⟩ := Option.isSome_iff_exists.mp (h w mem_cons_self)
    obtain ⟨cols, hcols, hall⟩ := evalWindows_ok lib ev rows (forall_mem_cons.mp h).2
    refine ⟨_ :: cols, ?_, .cons ⟨kind, hkind, rfl⟩ hall⟩
    simp only [evalWindows, hkind, hcols]

/-- The ranking functions of any windows over any rows are the numbers of rows that they stand for. -/
theorem ranking_windows {ρ : Type} (lib : TypeLib) {ev : ρ → Expr → Value} {rows : List ρ}
    {ws : List WinCall} (hws : ∀ w ∈ ws, (classifyWin w.call).isSome)
    (htotal : ∀ w ∈ ws, TotalOn (valueCompare · · .binary) (rows.flatMap (windowKeys ev w))) :
    ∃ cols, evalWindows lib ev rows ws = .ok cols ∧ List.Forall₂ (RankingOf ev · rows) ws cols := by
  obtain ⟨cols, hcols, hall⟩ := evalWindows_ok lib ev rows hws
  refine ⟨cols, hcols, ?_⟩
  rw [List.forall₂_iff_get] at hall ⊢
  refine ⟨hall.1, fun i hi hi' => ?_⟩
  obtain ⟨kind, hkind, heq⟩ := hall.2 i hi hi'
  rw [heq]
  exact evalWindow_ranking lib hkind (htotal _ (get_mem ws ⟨i, hi⟩))

/-- `name(...) OVER (PARTITION BY a ORDER BY b DESC)`. -/
def overAB (name : String) (args : List Expr) : WinCall :=
  ⟨⟨name.toUTF8.toList, false, args⟩, [.column none [97]], [(.column none [98], true)]⟩

/-- Three rows of one partition, of which two are peers, and one of another. -/
def fourRows : List Row := [[.int 1, .int 5], [.int 2, .int 9], [.int 1, .int 7], [.int 1, .int 5]]

/-- RANK and NTILE(2) of four rows. -/
theorem ranking_windows_four : ∃ cols,
    evalWindows bareLib twoColumnEval fourRows [overAB "rank" [], overAB "NTILE" [.literal (.int 2)]] = .ok cols ∧
      List.Forall₂ (RankingOf twoColumnEval · fourRows)
        [overAB "rank" [], overAB "NTILE" [.literal (.int 2)]] cols := by
  refine ranking_windows bareLib ?_ ?_
  · simp only [forall_mem_cons]
    decide +kernel
  · simp only [forall_mem_cons]
    unfold TotalOn MixedOrder.TransAt
    decide +kernel

example : evalWindow bareLib twoColumnEval (overAB "rank" []) .rank fourRows =
    [.int 2, .int 1, .int 1, .int 2] := by
  decide +kernel

end Tdb.Sql
