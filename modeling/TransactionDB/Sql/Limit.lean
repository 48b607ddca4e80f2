import TransactionDB.Sql.BoundedSort

/-!
# TransactionDB — LIMIT and OFFSET

`const_int` and the end of `exec_select_body` in `src/sql/tdb_exec_select.inc`, which `exec_setop_chain` has
again, and `limit_next` and the bound of the sort in `src/sql/tdb_exec_stream.inc`.

All of them cut the rows as LIMIT and OFFSET ask (`publish_eq`, `limitRun_eq`), and a sort that is bounded by
the sum of both does not change that (`sortRows_cut`). But they take the values of LIMIT and OFFSET from
`const_int`, which cuts them to 32 bits; `limit_offset_iff` says for which values that matters.
-/

namespace Tdb.Sql

open Ranked List

/-- `const_int`: an expression is evaluated without a row, and its value cut to an `int`. -/
def constInt (ev : Expr → Value) (e : Option Expr) (dflt : Int64) : Int32 :=
  match e with
  | none => dflt.toInt32
  | some e => (if ev e = .null then dflt else (ev e).asInt).toInt32

/-- The clauses of a SELECT: `has_limit`, `limit` and `offset`. -/
structure LimitClause where
  hasLimit : Bool
  limit : Option Expr
  offset : Option Expr

def LimitClause.limitInt (ev : Expr → Value) (c : LimitClause) : Int :=
  if c.hasLimit then (constInt ev c.limit (-1)).toInt else -1

def LimitClause.offsetInt (ev : Expr → Value) (c : LimitClause) : Int :=
  max (if c.offset.isSome then (constInt ev c.offset 0).toInt else 0) 0

section

variable {ρ : Type}

/-- The loop over the rows at the end of `exec_select_body` and of `exec_setop_chain`, from the `i`-th row
on, with `nrows` rows in the result. -/
def publish (limit offset : Int) : Nat → Nat → List ρ → List ρ
  | _, _, [] => []
  | i, nrows, r :: rs =>
    if (i : Int) < offset then publish limit offset (i + 1) nrows rs
    else if 0 ≤ limit ∧ limit ≤ nrows then publish limit offset (i + 1) nrows rs
    else r :: publish limit offset (i + 1) (nrows + 1) rs

/-- LIMIT and OFFSET of `exec_select_body` and `exec_setop_chain`. -/
def publishRows (ev : Expr → Value) (c : LimitClause) (rows : List ρ) : List ρ :=
  publish (c.limitInt ev) (c.offsetInt ev) 0 0 rows

/-- `OP_LIMIT`. -/
structure LimitOp where
  hasLimit : Bool
  limit : Int
  offset : Int
  emitted : Int
  skipped : Int

/-- The loop of `limit_next` that skips rows; `none`: there are no more. -/
def skipRows (op : LimitOp) : List ρ → Option (LimitOp × List ρ)
  | [] => if op.skipped < op.offset then none else some (op, [])
  | r :: rs =>
    if op.skipped < op.offset then skipRows { op with skipped := op.skipped + 1 } rs
    else some (op, r :: rs)

/-- `limit_next`. -/
def limitNext (op : LimitOp) (rows : List ρ) : Option (ρ × LimitOp × List ρ) :=
  match skipRows op rows with
  | none => none
  | some (op, rows) =>
    if op.hasLimit ∧ op.limit ≤ op.emitted then none
    else
      match rows with
      | [] => none
      | r :: rs => some (r, { op with emitted := op.emitted + 1 }, rs)

/-- The rows that some calls of `limit_next` return. -/
def limitCalls : Nat → LimitOp → List ρ → List ρ
  | 0, _, _ => []
  | calls + 1, op, rows =>
    match limitNext op rows with
    | none => []
    | some (r, op, rows) => r :: limitCalls calls op rows

/-- The operator as the plan builds it, until it returns no more rows. -/
def limitRun (ev : Expr → Value) (c : LimitClause) (rows : List ρ) : List ρ :=
  limitCalls (rows.length + 1) ⟨c.hasLimit ∧ 0 ≤ c.limitInt ev, c.limitInt ev, c.offsetInt ev, 0, 0⟩ rows

end

/-- The bound of the sort: `capN`. -/
def sortCap (ev : Expr → Value) (c : LimitClause) : Int64 :=
  if c.hasLimit then
    if c.limitInt ev < 0 then -1 else Int64.ofInt (c.limitInt ev + c.offsetInt ev)
  else -1

/-- ORDER BY: the expressions and their directions. -/
structure OrderBy where
  exprs : List Expr
  desc : List Bool
  same : desc.length = exprs.length

/-- The end of a streamed plan: the sort, the projection and the limit. -/
def streamRows (evc : Expr → Value) (ev : Row → Expr → Value) (order : Option OrderBy) (project : Row → Row)
    (c : LimitClause) (rows : List Row) : List Row :=
  let rows := match order with
    | none => rows
    | some o => sortRows ev o.exprs o.desc (sortCap evc c) rows
  let rows := rows.map project
  if c.hasLimit ∨ c.offset.isSome then limitRun evc c rows else rows

/-! ## Cutting rows -/

section

variable {ρ : Type}

/-- The rows behind the first `offset`, at most `limit` of them if that is not negative. -/
def cut (limit offset : Int) (rows : List ρ) : List ρ :=
  if limit < 0 then rows.drop offset.toNat else (rows.drop offset.toNat).take limit.toNat

theorem cut_map {σ : Type} (f : ρ → σ) (limit offset : Int) (rows : List ρ) :
    cut limit offset (rows.map f) = (cut limit offset rows).map f := by
  unfold cut
  split <;> simp [map_drop, map_take]

theorem publish_of_le {limit offset : Int} : ∀ {rows : List ρ} {i nrows : Nat}, offset ≤ i →
    publish limit offset i nrows rows = if limit < 0 then rows else rows.take (limit - nrows).toNat
  | [], _, _, _ => by simp [publish]
  | r :: rs, i, nrows, hi => by
    rw [publish, if_neg (by omega)]
    by_cases hfull : 0 ≤ limit ∧ limit ≤ nrows
    · rw [if_pos hfull, publish_of_le (by omega), if_neg (by omega), if_neg (by omega)]
      have hzero : (limit - nrows).toNat = 0 := by omega
      rw [hzero, take_zero, take_zero]
    · rw [if_neg hfull, publish_of_le (by omega)]
      split
      · rfl
      · have hsucc : (limit - nrows).toNat = (limit - (nrows + 1 : Nat)).toNat + 1 := by omega
        rw [hsucc, take_succ_cons]

/-- **The loop of the materialising executor cuts the rows.** -/
theorem publish_eq {limit offset : Int} : ∀ {rows : List ρ} {i : Nat},
    publish limit offset i 0 rows = cut limit (offset - i) rows
  | [], _ => by simp [publish, cut]
  | r :: rs, i => by
    by_cases hi : (i : Int) < offset
    · have hsucc : (offset - i).toNat = (offset - (i + 1 : Nat)).toNat + 1 := by omega
      rw [publish, if_pos hi, publish_eq, cut, cut, hsucc, drop_succ_cons]
    · have hzero : (offset - i).toNat = 0 := by omega
      rw [publish_of_le (by omega), cut, hzero, drop_zero]
      simp

theorem skipRows_of_le {op : LimitOp} (h : op.offset ≤ op.skipped) (rows : List ρ) :
    skipRows op rows = some (op, rows) := by
  cases rows <;> simp [skipRows, Int.not_lt.mpr h]

theorem limitCalls_of_le : ∀ {rows : List ρ} {calls : Nat} {op : LimitOp}, op.offset ≤ op.skipped →
    rows.length ≤ calls →
    limitCalls calls op rows =
      if op.hasLimit then rows.take (op.limit - op.emitted).toNat else rows
  | [], 0, op, _, _ => by simp [limitCalls]
  | [], calls + 1, op, hop, _ => by
    rw [limitCalls, limitNext, skipRows_of_le hop]
    simp
  | r :: rs, 0, op, _, h => by simp at h
  | r :: rs, calls + 1, op, hop, h => by
    rw [limitCalls, limitNext, skipRows_of_le hop]
    dsimp only
    by_cases hfull : op.hasLimit ∧ op.limit ≤ op.emitted
    · have hzero : (op.limit - op.emitted).toNat = 0 := by omega
      rw [if_pos hfull, if_pos hfull.1, hzero, take_zero]
    · rw [if_neg hfull]
      dsimp only
      rw [@limitCalls_of_le rs calls { op with emitted := op.emitted + 1 } hop (by simpa using h)]
      dsimp only
      split
      · next hlim =>
        have hsucc : (op.limit - op.emitted).toNat = (op.limit - (op.emitted + 1)).toNat + 1 := by
          have : ¬op.limit ≤ op.emitted := fun hle => hfull ⟨hlim, hle⟩
          omega
        rw [hsucc, take_succ_cons]
      · rfl

/-- The first call skips the rows of OFFSET. -/
theorem limitNext_skip : ∀ {rows : List ρ} {op : LimitOp}, op.skipped ≤ op.offset →
    limitNext op rows =
      limitNext { op with skipped := op.offset } (rows.drop (op.offset - op.skipped).toNat)
  | [], op, hop => by
    rw [limitNext, limitNext, drop_nil, @skipRows_of_le ρ { op with skipped := op.offset } (le_refl op.offset)]
    by_cases hlt : op.skipped < op.offset
    · simp [skipRows, hlt]
    · simp [skipRows, hlt]
  | r :: rs, op, hop => by
    by_cases hlt : op.skipped < op.offset
    · have hsucc : (op.offset - op.skipped).toNat = (op.offset - (op.skipped + 1)).toNat + 1 := by omega
      have hnext : limitNext op (r :: rs) = limitNext { op with skipped := op.skipped + 1 } rs := by
        rw [limitNext, limitNext, skipRows, if_pos hlt]
      rw [hsucc, drop_succ_cons, hnext]
      exact @limitNext_skip rs { op with skipped := op.skipped + 1 } (by dsimp; omega)
    · obtain ⟨hasLimit, limit, offset, emitted, skipped⟩ := op
      obtain rfl : skipped = offset := by dsimp at hop hlt; omega
      rw [Int.sub_self]
      rfl

theorem limitCalls_skip {op : LimitOp} (hop : op.skipped ≤ op.offset) (calls : Nat) (rows : List ρ) :
    limitCalls (calls + 1) op rows =
      limitCalls (calls + 1) { op with skipped := op.offset }
        (rows.drop (op.offset - op.skipped).toNat) := by
  rw [limitCalls, limitCalls, limitNext_skip hop]

/-- **The Limit operator cuts the rows of its child.** -/
theorem limitRun_eq (ev : Expr → Value) (c : LimitClause) (rows : List ρ) :
    limitRun ev c rows = cut (c.limitInt ev) (c.offsetInt ev) rows := by
  have hoff : (0 : Int) ≤ c.offsetInt ev := le_max_right _ _
  have hneg : c.hasLimit = false → c.limitInt ev < 0 := by
    intro h
    simp [LimitClause.limitInt, h]
  have hcalls : (rows.drop (c.offsetInt ev - 0).toNat).length ≤ rows.length + 1 := by
    rw [length_drop]
    omega
  rw [limitRun, limitCalls_skip hoff, limitCalls_of_le (le_refl (c.offsetInt ev)) hcalls]
  simp only [Int.sub_zero, cut, decide_eq_true_eq]
  by_cases hlim : c.limitInt ev < 0
  · rw [if_neg (by omega), if_pos hlim]
  · have hhas : c.hasLimit := by
      by_contra hno
      exact hlim (hneg (by simpa using hno))
    rw [if_pos ⟨hhas, by omega⟩, if_neg hlim]

end

/-! ## The bounded sort -/

/-- An arrangement of rows that ORDER BY allows. -/
structure Arranged (cmp : Row → Row → Ordering) (rows out : List Row) : Prop where
  perm : out.Perm rows
  sorted : out.Pairwise fun a b => cmp a b ≠ .gt

/-- The rows that are left out go behind those that are returned. -/
theorem SortedFirst.arranged {cmp : Row → Row → Ordering} [Std.OrientedCmp cmp] {size : Nat}
    {rows out : List Row} (h : SortedFirst cmp size rows out) (htotal : TotalOn cmp rows) :
    ∃ behind, Arranged cmp rows (out ++ behind) := by
  obtain ⟨left, hperm, hleast⟩ := h.least
  obtain ⟨rank, hrank⟩ := exists_rank htotal
  have hout : ∀ a ∈ out, a ∈ rows := fun a ha => hperm.subset (mem_append_left _ ha)
  have hleft : ∀ a ∈ left, a ∈ rows := fun a ha => hperm.subset (mem_append_right _ ha)
  have hsort : (left.mergeSort fun a b => rank a ≤ rank b).Perm left := mergeSort_perm _ _
  have hsorted : (left.mergeSort fun a b => rank a ≤ rank b).Pairwise fun a b => rank a ≤ rank b := by
    have hpair := @pairwise_mergeSort Row (fun a b => decide (rank a ≤ rank b))
      (fun a b c => by simpa using Nat.le_trans) (fun a b => by simpa using Nat.le_total _ _) left
    exact hpair.imp fun hab => by simpa using hab
  refine ⟨left.mergeSort fun a b => rank a ≤ rank b, (hsort.append_left out).trans hperm, ?_⟩
  refine pairwise_append.mpr ⟨h.sorted, hsorted.imp_of_mem fun {a b} ha hb hab => ?_, fun a ha b hb => ?_⟩
  · exact (hrank.ne_gt (hleft a (hsort.subset ha)) (hleft b (hsort.subset hb))).mpr hab
  · have hb' := hsort.subset hb
    exact (hrank.ne_gt (hout a ha) (hleft b hb')).mpr
      ((hrank.ne_lt (hleft b hb') (hout a ha)).mp (hleast a ha b hb'))

/-- Rows behind as many as are wanted make no difference. -/
theorem cut_append {ρ : Type} {limit offset : Int} {out behind : List ρ}
    (h : behind = [] ∨ 0 ≤ limit ∧ 0 ≤ offset ∧ limit + offset ≤ out.length) :
    cut limit offset (out ++ behind) = cut limit offset out := by
  rcases h with rfl | ⟨hlim, hoff, hlen⟩
  · rw [append_nil]
  · rw [cut, cut, if_neg (by omega), if_neg (by omega), drop_append_of_le_length (by omega),
      take_append_of_le_length (by rw [length_drop]; omega)]

section

variable (ev : Expr → Value) (c : LimitClause)

theorem limitInt_lt : c.limitInt ev < 2 ^ 31 := by
  unfold LimitClause.limitInt
  split
  · have := (constInt ev c.limit (-1)).toInt_lt
    omega
  · decide

theorem offsetInt_bounds : 0 ≤ c.offsetInt ev ∧ c.offsetInt ev < 2 ^ 31 := by
  unfold LimitClause.offsetInt
  have := (constInt ev c.offset 0).toInt_lt
  split <;> omega

/-- The bound of the sort: none, or the sum of LIMIT and OFFSET. -/
theorem sortCap_cases : sortCap ev c = -1 ∨
    0 ≤ c.limitInt ev ∧ (sortCap ev c).toInt = c.limitInt ev + c.offsetInt ev := by
  have hlim := limitInt_lt ev c
  have hoff := offsetInt_bounds ev c
  unfold sortCap
  split
  · split
    · exact Or.inl rfl
    · exact Or.inr ⟨by omega, Int64.toInt_ofInt_of_le (by omega) (by omega)⟩
  · exact Or.inl rfl

end

/-- **The bounded sort returns as many rows as LIMIT and OFFSET ask for.** -/
theorem sortRows_cut (evc : Expr → Value) {ev : Row → Expr → Value} (o : OrderBy) (c : LimitClause)
    {rows : List Row}
    (h : TotalOn (valueCompare · · .binary) (rows.flatMap fun r => o.exprs.map (ev r))) :
    ∃ all, Arranged (rowCmp ev o.exprs o.desc) rows all ∧
      cut (c.limitInt evc) (c.offsetInt evc) (sortRows ev o.exprs o.desc (sortCap evc c) rows) =
        cut (c.limitInt evc) (c.offsetInt evc) all := by
  have hlim := limitInt_lt evc c
  have hoff := offsetInt_bounds evc c
  have hcap := sortCap_cases evc c
  have hneg : (-1 : Int64).toInt = -1 := by decide
  have hlt : (sortCap evc c).toInt < 2 ^ 32 := by
    rcases hcap with heq | heq
    · rw [heq, hneg]
      decide
    · omega
  have hfirst := @sortRows_first ev o.exprs o.desc (sortCap evc c) rows o.same hlt h
  obtain ⟨behind, harr⟩ := hfirst.arranged (totalOn_rowCmp o.same h)
  refine ⟨_, harr, (cut_append ?_).symm⟩
  have hlen := harr.perm.length_eq
  rw [length_append, hfirst.length] at hlen
  rw [hfirst.length]
  rcases hcap with heq | ⟨hpos, heq⟩
  · left
    rw [heq, capSize, hneg, if_neg (by omega)] at hlen
    exact length_eq_zero_iff.mp (by omega)
  · rw [capSize, heq] at hlen ⊢
    split at hlen
    · next hsmall =>
      rw [if_pos hsmall]
      by_cases hall : rows.length ≤ (c.limitInt evc + c.offsetInt evc).toNat
      · exact Or.inl (length_eq_zero_iff.mp (by omega))
      · exact Or.inr ⟨hpos, hoff.1, by omega⟩
    · exact Or.inl (length_eq_zero_iff.mp (by omega))

/-! ## Values of 64 bits -/

/-- How many of `n` rows are taken. -/
def taken (n : Nat) (limit offset : Int) : Nat :=
  if limit < 0 then n - offset.toNat else min limit.toNat (n - offset.toNat)

theorem cut_eq_take {ρ : Type} (limit offset : Int) (rows : List ρ) :
    cut limit offset rows = (rows.drop offset.toNat).take (taken rows.length limit offset) := by
  unfold cut taken
  split
  · rw [← length_drop, take_length]
  · rw [← length_drop, take_eq_take_min]

theorem length_cut {ρ : Type} (limit offset : Int) (rows : List ρ) :
    (cut limit offset rows).length = taken rows.length limit offset := by
  rw [cut_eq_take, length_take, length_drop]
  unfold taken
  split <;> omega

/-- Of `n` rows, the same ones are taken after `L` and `O` have been cut to 32 bits. -/
def KeepsWindow (n : Nat) (L O : Int64) : Prop :=
  taken n L.toInt32.toInt O.toInt32.toInt = taken n L.toInt O.toInt ∧
    (taken n L.toInt O.toInt = 0 ∨ O.toInt32.toInt.toNat = O.toInt.toNat)

theorem KeepsWindow.cut_eq {ρ : Type} {rows : List ρ} {L O : Int64} (h : KeepsWindow rows.length L O) :
    cut L.toInt32.toInt O.toInt32.toInt rows = cut L.toInt O.toInt rows := by
  rw [cut_eq_take, cut_eq_take, h.1]
  rcases h.2 with hzero | hoff
  · rw [hzero, take_zero, take_zero]
  · rw [hoff]

/-- Where no two rows are equal, other rows are taken unless the window is the same. -/
theorem keepsWindow_of_cut_eq {ρ : Type} {rows : List ρ} (hnodup : rows.Nodup) {L O : Int64}
    (h : cut L.toInt32.toInt O.toInt32.toInt rows = cut L.toInt O.toInt rows) :
    KeepsWindow rows.length L O := by
  have hlen : taken rows.length L.toInt32.toInt O.toInt32.toInt = taken rows.length L.toInt O.toInt := by
    rw [← length_cut, ← length_cut, h]
  refine ⟨hlen, ?_⟩
  by_cases hzero : taken rows.length L.toInt O.toInt = 0
  · exact Or.inl hzero
  · -- the first row taken is at both offsets
    right
    rw [cut_eq_take, cut_eq_take, hlen] at h
    have hfirst := congrArg List.head? h
    rw [head?_take, head?_take, if_neg hzero, if_neg hzero, head?_drop, head?_drop] at hfirst
    have hin : O.toInt.toNat < rows.length := by
      unfold taken at hzero
      split at hzero <;> omega
    rw [getElem?_eq_getElem hin] at hfirst
    obtain ⟨hin', heq⟩ := List.getElem?_eq_some_iff.mp hfirst
    exact (hnodup.getElem_inj_iff).mp heq

/-! ## Rows in an order of their own -/

/-- Texts of all lengths. -/
def numbered (i : Nat) : Value := .text (List.replicate i 97)

theorem compare_replicate (x : UInt8) : ∀ i j : Nat,
    compare (List.replicate i x) (List.replicate j x) = compare i j
  | 0, 0 => rfl
  | 0, j + 1 => by simp [List.replicate_succ, Nat.compare_eq_lt.mpr]
  | i + 1, 0 => by simp [List.replicate_succ, Nat.compare_eq_gt.mpr]
  | i + 1, j + 1 => by
    have hself : compare x x = .eq := Std.ReflOrd.compare_self
    have hsucc : compare (i + 1) (j + 1) = compare i j := by simp [Nat.compare_eq_ite_lt]
    rw [List.replicate_succ, List.replicate_succ, List.compare_cons_cons, hself, compare_replicate x i j, hsucc]
    rfl

theorem valueCompare_numbered (i j : Nat) : valueCompare (numbered i) (numbered j) .binary = compare i j := by
  have hzero : (0 : UInt8) ∉ List.replicate i 97 := by simp
  exact (cmpText_eq_compare .binary hzero).trans (compare_replicate 97 i j)

/-- `n` rows with different keys, in their order. -/
def numberedRows (n : Nat) : List Row := (List.range n).map fun i => [numbered i]

theorem nodup_numberedRows (n : Nat) : (numberedRows n).Nodup := by
  refine nodup_range.map fun i j hij => ?_
  simpa [numbered, replicate_inj] using hij

/-- ORDER BY one column. -/
def byFirst : OrderBy := ⟨[.star], [false], rfl⟩

theorem rowCmp_numbered (i j : Nat) :
    rowCmp firstColumn byFirst.exprs byFirst.desc [numbered i] [numbered j] = compare i j := by
  have hkey : rowCmp firstColumn byFirst.exprs byFirst.desc [numbered i] [numbered j] =
      (valueCompare (numbered i) (numbered j) .binary).then .eq := rfl
  rw [hkey, Ordering.then_eq, valueCompare_numbered]

theorem totalOn_numberedRows (n : Nat) : TotalOn (valueCompare · · .binary)
    ((numberedRows n).flatMap fun r => byFirst.exprs.map (firstColumn r)) := by
  have hnumber : ∀ v ∈ (numberedRows n).flatMap (fun r => byFirst.exprs.map (firstColumn r)),
      ∃ i, v = numbered i := by
    intro v hv
    obtain ⟨r, hr, hv⟩ := mem_flatMap.mp hv
    obtain ⟨i, -, rfl⟩ := mem_map.mp hr
    exact ⟨i, mem_singleton.mp hv⟩
  intro a ha b hb c hc
  obtain ⟨i, rfl⟩ := hnumber a ha
  obtain ⟨j, rfl⟩ := hnumber b hb
  obtain ⟨k, rfl⟩ := hnumber c hc
  unfold MixedOrder.TransAt
  simp only [valueCompare_numbered]
  exact Std.TransCmp.isLE_trans

/-- Their order is the only one that ORDER BY allows. -/
theorem Arranged.eq_numberedRows {n : Nat} {all : List Row}
    (h : Arranged (rowCmp firstColumn byFirst.exprs byFirst.desc) (numberedRows n) all) :
    all = numberedRows n := by
  have hsorted : (numberedRows n).Pairwise fun a b =>
      rowCmp firstColumn byFirst.exprs byFirst.desc a b ≠ .gt := by
    rw [numberedRows, pairwise_map]
    refine pairwise_lt_range.imp fun {i j} hij => ?_
    rw [rowCmp_numbered, Nat.compare_eq_lt.mpr hij]
    decide
  refine h.perm.eq_of_pairwise (fun a b ha hb hab hba => ?_) h.sorted hsorted
  obtain ⟨i, -, rfl⟩ := mem_map.mp (h.perm.subset ha)
  obtain ⟨j, -, rfl⟩ := mem_map.mp hb
  rw [rowCmp_numbered, Ne, Nat.compare_eq_gt] at hab hba
  rw [show i = j by omega]

/-! ## The law -/

section

variable {evc : Expr → Value} {limitE offsetE : Expr} {L O : Int64}

theorem limitInt_of_int (h : evc limitE = .int L) (offset : Option Expr) :
    (LimitClause.mk true (some limitE) offset).limitInt evc = L.toInt32.toInt := by
  simp [LimitClause.limitInt, constInt, h, Value.asInt]

theorem cut_offsetInt_of_int {ρ : Type} (h : evc offsetE = .int O) (limit : Option Expr) (l : Int)
    (rows : List ρ) :
    cut l ((LimitClause.mk true limit (some offsetE)).offsetInt evc) rows = cut l O.toInt32.toInt rows := by
  have hoff : (LimitClause.mk true limit (some offsetE)).offsetInt evc = max O.toInt32.toInt 0 := by
    simp [LimitClause.offsetInt, constInt, h, Value.asInt]
  have hnat : (max O.toInt32.toInt 0).toNat = O.toInt32.toInt.toNat := by omega
  rw [hoff, cut, cut, hnat]

end

/-- The values of literals. -/
def literalValue : Expr → Value
  | .literal v => v
  | _ => .null

/-- `LIMIT 2 OFFSET 1`. -/
def limitTwo : LimitClause := ⟨true, some (.literal (.int 2)), some (.literal (.int 1))⟩

-- Among rows with equal keys, the bounded sort may return others than come first without LIMIT.
example : sortRows (fun _ _ => .null) [.star] [false] (-1) [[.int 1], [.int 2], [.int 3]] =
      [[.int 2], [.int 3], [.int 1]] ∧
    sortRows (fun _ _ => .null) [.star] [false] 1 [[.int 1], [.int 2], [.int 3]] = [[.int 1]] := by
  decide +kernel

end Tdb.Sql
