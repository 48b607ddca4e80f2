import TransactionDB.Lib.RelJoin
import TransactionDB.Sql.Eval

/-!
# TransactionDB — materialised joins

`join_build` of `src/sql/tdb_exec.c`. The sources of a SELECT are joined from left to right. Every row has
room for the columns of all sources, with NULL for those that are not joined yet. The loop over the right
rows writes each of them into the left row, evaluates ON there and copies the row if ON holds; only after
the last one are the columns of the source set to NULL again.

The relational join of `RelJoin` is over rows that have only the columns of the sources joined so far
(`joined`); ON is evaluated on such a row with NULLs behind it.

* `probe_eq`: what the loop over the right rows does, for whatever the row held in the columns of the source.
* `joinNext_eq`: one source is a nested loop.
* `join_build_correct`: all sources, and WHERE.
-/

namespace Tdb.Sql

open List

/-- `rowset`: rows of one width. -/
structure Rowset where
  ncol : Nat
  rows : List Row
  width : ∀ r ∈ rows, r.length = ncol

/-- `qsrc`, with the rows of the source. -/
structure JoinSrc where
  base : Nat
  join : JoinKind
  on : Option Expr
  set : Rowset

/-- Each source begins where the one in front of it ends. -/
def Laid : Nat → List JoinSrc → Prop
  | _, [] => True
  | b, s :: ss => s.base = b ∧ Laid (b + s.set.ncol) ss

def widths (srcs : List JoinSrc) : Nat := (srcs.map (·.set.ncol)).sum

/-- `qctx`: the sources of a SELECT, of which there is at least one. -/
structure JoinPlan where
  first : JoinSrc
  rest : List JoinSrc
  laid : Laid 0 (first :: rest)

def JoinPlan.totalcols (p : JoinPlan) : Nat := widths (p.first :: p.rest)

def JoinSrc.keepsLeft (s : JoinSrc) : Bool := s.join = .left ∨ s.join = .full

def JoinSrc.keepsRight (s : JoinSrc) : Bool := s.join = .right ∨ s.join = .full

/-- `row_alloc`. -/
def rowAlloc (n : Nat) : Row := List.replicate n .null

/-- The values are copied to the columns from `base` on. -/
def writeCols : Nat → List Value → Row → Row
  | _, [], row => row
  | base, v :: vs, row => writeCols (base + 1) vs (row.set base v)

section

variable (ev : Row → Expr → Value)

/-- A condition that is absent holds. -/
def holdsOn (cond : Option Expr) (row : Row) : Bool :=
  match cond with
  | none => true
  | some e => valTrue (ev row e)

/-- The state of the loop over the right rows: the left row, what was copied from it, and the matches. -/
structure Probe where
  cand : Row
  next : List Row
  lmatched : Bool
  rmatched : List Bool

/-- The loop over the right rows for one left row. -/
def probe (s : JoinSrc) : List Row → List Bool → Row → Probe
  | r :: rs, m :: ms, cand =>
    let cand := writeCols s.base r cand
    let ok := holdsOn ev s.on cand
    let p := probe s rs ms cand
    ⟨p.cand, if ok then cand :: p.next else p.next, ok || p.lmatched, (m || ok) :: p.rmatched⟩
  | _, ms, cand => ⟨cand, [], false, ms⟩

/-- One left row: the columns of the source are NULL again before an unmatched row is copied. -/
def joinLeft (s : JoinSrc) (rmatched : List Bool) (row : Row) : List Row × List Bool :=
  let p := probe ev s s.set.rows rmatched row
  let row := writeCols s.base (rowAlloc s.set.ncol) p.cand
  (p.next ++ if !p.lmatched ∧ s.keepsLeft then [row] else [], p.rmatched)

/-- The loop over the left rows. -/
def joinLefts (s : JoinSrc) : List Bool → List Row → List Row × List Bool
  | rmatched, [] => ([], rmatched)
  | rmatched, row :: rows =>
    let one := joinLeft ev s rmatched row
    let more := joinLefts s one.2 rows
    (one.1 ++ more.1, more.2)

/-- One more source. -/
def joinNext (total : Nat) (acc : List Row) (s : JoinSrc) : List Row :=
  let res := joinLefts ev s (s.set.rows.map fun _ => false) acc
  res.1 ++
    if s.keepsRight then
      ((s.set.rows.zip res.2).filter fun x => !x.2).map fun x => writeCols s.base x.1 (rowAlloc total)
    else []

/-- `join_build`. -/
def joinBuild (p : JoinPlan) (where_ : Option Expr) : List Row :=
  let acc := p.first.set.rows.map fun r => writeCols p.first.base r (rowAlloc p.totalcols)
  (p.rest.foldl (joinNext ev p.totalcols) acc).filter (holdsOn ev where_)

end

/-! ## Writing columns -/

theorem writeCols_append : ∀ (vs : List Value) (front mid back : Row), mid.length = vs.length →
    writeCols front.length vs (front ++ (mid ++ back)) = front ++ (vs ++ back)
  | [], front, mid, back, h => by
    obtain rfl : mid = [] := length_eq_zero_iff.mp h
    rfl
  | v :: vs, front, mid, back, h => by
    cases mid with
    | nil => simp at h
    | cons m mid =>
      have hset : (front ++ (m :: mid ++ back)).set front.length v = front ++ [v] ++ (mid ++ back) := by
        simp
      have hlen : front.length + 1 = (front ++ [v]).length := by simp
      rw [writeCols, hset, hlen, writeCols_append vs (front ++ [v]) mid back (by simpa using h)]
      simp

/-- A row that has only the columns of the first sources, with NULL for the others. -/
def padTo (total : Nat) (row : Row) : Row := row ++ rowAlloc (total - row.length)

theorem padTo_append (total : Nat) (l r : Row) :
    padTo total (l ++ r) = l ++ (r ++ rowAlloc (total - l.length - r.length)) := by
  rw [padTo, append_assoc, length_append, Nat.sub_add_eq]

theorem padTo_of_length {total : Nat} {row : Row} (h : row.length = total) : padTo total row = row := by
  simp [padTo, rowAlloc, h]

theorem rowAlloc_add (a b : Nat) : rowAlloc (a + b) = rowAlloc a ++ rowAlloc b :=
  replicate_add a b _

/-- Values in a row that is NULL otherwise. -/
theorem writeCols_rowAlloc {total base : Nat} {r : Row} (h : base + r.length ≤ total) :
    writeCols base r (rowAlloc total) = padTo total (rowAlloc base ++ r) := by
  have hwrite := writeCols_append r (rowAlloc base) (rowAlloc r.length)
    (rowAlloc (total - base - r.length)) (by simp [rowAlloc])
  have hlen : (rowAlloc base).length = base := by simp [rowAlloc]
  have hsum : base + (r.length + (total - base - r.length)) = total := by omega
  rw [← rowAlloc_add, ← rowAlloc_add, hsum, hlen] at hwrite
  rw [hwrite, padTo_append, hlen]

/-! ## The relational join -/

section

variable (ev : Row → Expr → Value) (total : Nat)

/-- How the rows of a source are put behind the rows joined so far. -/
def JoinSrc.shape (s : JoinSrc) : RelJoin.Shape Row Row Row where
  pair l r := l ++ r
  padRight l := l ++ rowAlloc s.set.ncol
  padLeft r := rowAlloc s.base ++ r

/-- ON, for a row joined so far and a row of the source. -/
def JoinSrc.matches (s : JoinSrc) (l r : Row) : Bool := holdsOn ev s.on (padTo total (l ++ r))

/-- The relational join with one more source. -/
def joinedWith (rows : Multiset Row) (s : JoinSrc) : Multiset Row :=
  RelJoin.join s.shape s.keepsLeft s.keepsRight (s.matches ev total) rows s.set.rows

/-- The relational join of all sources. -/
def joined (p : JoinPlan) : Multiset Row :=
  p.rest.foldl (joinedWith ev p.totalcols) p.first.set.rows

end

/-! ## One source -/

section

variable {ev : Row → Expr → Value} {total : Nat} {s : JoinSrc}

/-- The loop over the right rows, for whatever the left row holds in the columns of the source. -/
theorem probe_eq {l : Row} (hl : l.length = s.base) (seen : Row → Bool) : ∀ {rs : List Row} {x : Row},
    (∀ r ∈ rs, r.length = s.set.ncol) → x.length = s.set.ncol →
    let p := probe ev s rs (rs.map seen) (padTo total (l ++ x))
    p.next = ((rs.filter (s.matches ev total l)).map (l ++ ·)).map (padTo total) ∧
      p.lmatched = rs.any (s.matches ev total l) ∧
      p.rmatched = rs.map (fun r => seen r || s.matches ev total l r) ∧
      ∃ y, y.length = s.set.ncol ∧ p.cand = padTo total (l ++ y) := by
  intro rs
  induction rs with
  | nil => exact fun {x} _ hx => ⟨rfl, rfl, rfl, x, hx, rfl⟩
  | cons r rs ih =>
    intro x hrs hx
    have hr : r.length = s.set.ncol := hrs r mem_cons_self
    -- the columns of the source are written over, whatever they held
    have hwrite : writeCols s.base r (padTo total (l ++ x)) = padTo total (l ++ r) := by
      rw [padTo_append, padTo_append, ← hl, writeCols_append r l x _ (hx.trans hr.symm), hx, hr]
    obtain ⟨hnext, hlm, hrm, hcand⟩ := @ih r (forall_mem_cons.mp hrs).2 hr
    have hok : holdsOn ev s.on (padTo total (l ++ r)) = s.matches ev total l r := rfl
    simp only [map_cons, probe, hwrite, hok, hnext, hlm, hrm]
    refine ⟨?_, rfl, trivial, hcand⟩
    by_cases hm : s.matches ev total l r <;> simp [hm]

section

variable (hroom : s.base + s.set.ncol ≤ total)

include hroom

/-- One left row gives its row of the nested loop. -/
theorem joinLeft_eq {l : Row} (hl : l.length = s.base) (seen : Row → Bool) :
    joinLeft ev s (s.set.rows.map seen) (padTo total l) =
      ((RelJoin.leftRow s.shape s.keepsLeft (s.matches ev total) s.set.rows l).map (padTo total),
        s.set.rows.map fun r => seen r || s.matches ev total l r) := by
  have hstart : padTo total l = padTo total (l ++ rowAlloc s.set.ncol) := by
    have hsplit : total - l.length = s.set.ncol + (total - l.length - s.set.ncol) := by omega
    rw [padTo_append, padTo, hsplit, rowAlloc_add]
    simp [rowAlloc]
  obtain ⟨hnext, hlm, hrm, y, hy, hcand⟩ :=
    @probe_eq ev total s l hl seen s.set.rows (rowAlloc s.set.ncol) s.set.width (by simp [rowAlloc])
  have hnull : writeCols s.base (rowAlloc s.set.ncol) (padTo total (l ++ y)) =
      padTo total (l ++ rowAlloc s.set.ncol) := by
    have hlen : y.length = (rowAlloc s.set.ncol).length := by simp [rowAlloc, hy]
    rw [padTo_append, padTo_append, ← hl, writeCols_append _ l y _ hlen, hlen]
  have hunmatched : (!(s.set.rows.any (s.matches ev total l)) ∧ s.keepsLeft) ↔
      (s.keepsLeft ∧ ∀ r ∈ s.set.rows, s.matches ev total l r = false) := by
    simp [and_comm]
  simp only [joinLeft, hstart, hnext, hlm, hrm, hcand, hnull, hunmatched, RelJoin.leftRow, map_append]
  refine congrArg₂ Prod.mk (congrArg₂ (· ++ ·) rfl ?_) rfl
  split <;> rfl

/-- The loop over the left rows. -/
theorem joinLefts_eq : ∀ {ls : List Row} (seen : Row → Bool),
    (∀ l ∈ ls, l.length = s.base) →
    joinLefts ev s (s.set.rows.map seen) (ls.map (padTo total)) =
      ((ls.flatMap (RelJoin.leftRow s.shape s.keepsLeft (s.matches ev total) s.set.rows)).map (padTo total),
        s.set.rows.map fun r => seen r || ls.any (s.matches ev total · r))
  | [], seen, _ => by simp [joinLefts]
  | l :: ls, seen, hls => by
    rw [map_cons, joinLefts, joinLeft_eq hroom (hls l mem_cons_self) seen,
      joinLefts_eq _ (forall_mem_cons.mp hls).2]
    simp only [flatMap_cons, map_append, any_cons, Bool.or_assoc]

/-- **One more source is a nested loop.** -/
theorem joinNext_eq {ls : List Row} (hls : ∀ l ∈ ls, l.length = s.base) :
    joinNext ev total (ls.map (padTo total)) s =
      (RelJoin.nestedLoop s.shape s.keepsLeft s.keepsRight (s.matches ev total) ls s.set.rows).map
        (padTo total) := by
  rw [joinNext, joinLefts_eq hroom _ hls, RelJoin.nestedLoop, map_append]
  refine congrArg₂ (· ++ ·) rfl ?_
  split
  · -- the right rows that no left row matched
    have hzip : s.set.rows.zip (s.set.rows.map fun r => false || ls.any (s.matches ev total · r)) =
        s.set.rows.map fun r => (r, ls.any (s.matches ev total · r)) := by
      simpa using @zip_map' Row Row Bool id (fun r => false || ls.any (s.matches ev total · r)) s.set.rows
    have hunmatched : (s.set.rows.filter ((fun x : Row × Bool => !x.2) ∘
          fun r => (r, ls.any (s.matches ev total · r)))) =
        s.set.rows.filter fun r => ∀ l ∈ ls, s.matches ev total l r = false :=
      filter_congr fun r _ => by
        rw [Bool.eq_iff_iff, decide_eq_true_iff]
        simp
    rw [hzip, filter_map, hunmatched, map_map, map_map]
    refine map_congr_left fun r hr => ?_
    refine writeCols_rowAlloc ?_
    rw [s.set.width r (mem_filter.mp hr).1]
    exact hroom
  · rfl

end

/-- The rows of a nested loop have the columns of the source behind those of the left rows. -/
theorem length_nestedLoop {ls : List Row} (hls : ∀ l ∈ ls, l.length = s.base) :
    ∀ row ∈ RelJoin.nestedLoop s.shape s.keepsLeft s.keepsRight (s.matches ev total) ls s.set.rows,
      row.length = s.base + s.set.ncol := by
  intro row hrow
  rw [RelJoin.nestedLoop, mem_append, mem_flatMap] at hrow
  rcases hrow with ⟨l, hl, hrow⟩ | hrow
  · rw [RelJoin.leftRow, mem_append, mem_map] at hrow
    rcases hrow with ⟨r, hr, rfl⟩ | hrow
    · exact (length_append ..).trans
        (by rw [hls l hl, s.set.width r (mem_filter.mp hr).1])
    · split at hrow
      · obtain rfl := mem_singleton.mp hrow
        exact (length_append ..).trans (by simp [hls l hl, rowAlloc])
      · cases hrow
  · split at hrow
    · obtain ⟨r, hr, rfl⟩ := mem_map.mp hrow
      exact (length_append ..).trans
        (by simp [rowAlloc, s.set.width r (mem_filter.mp hr).1])
    · cases hrow

end

/-! ## All sources -/

/-- The loop over the sources: the rows joined so far are those of the relational join, padded. -/
theorem foldl_joinNext (ev : Row → Expr → Value) : ∀ {srcs : List JoinSrc} {total base : Nat} {ls : List Row},
    Laid base srcs → base + widths srcs = total → (∀ l ∈ ls, l.length = base) →
    ∃ out : List Row, srcs.foldl (joinNext ev total) (ls.map (padTo total)) = out ∧
      (out : Multiset Row) = srcs.foldl (joinedWith ev total) (ls : Multiset Row)
  | [], total, base, ls, _, htotal, hls => by
    refine ⟨_, rfl, congrArg _ ?_⟩
    have hpad : ∀ l ∈ ls, padTo total l = id l := fun l hl =>
      padTo_of_length (by simpa [widths, hls l hl] using htotal)
    rw [foldl_nil, map_congr_left hpad, map_id]
  | s :: srcs, total, base, ls, hlaid, htotal, hls => by
    obtain ⟨rfl, hlaid⟩ := hlaid
    have hwidths : widths (s :: srcs) = s.set.ncol + widths srcs := by simp [widths]
    rw [hwidths, ← Nat.add_assoc] at htotal
    obtain ⟨out, hout, hperm⟩ := foldl_joinNext ev hlaid htotal (@length_nestedLoop ev total s ls hls)
    refine ⟨out, ?_, ?_⟩
    · rw [foldl_cons, joinNext_eq (by omega) hls, hout]
    · rw [hperm, foldl_cons, joinedWith, ← RelJoin.coe_nestedLoop]

/-- `join_build` returns the rows of the relational joins of all sources from left to right that satisfy
WHERE. -/
theorem join_build_correct (ev : Row → Expr → Value) (p : JoinPlan) (where_ : Option Expr) :
    (joinBuild ev p where_ : Multiset Row) = (joined ev p).filter fun row => holdsOn ev where_ row := by
  obtain ⟨hbase, hlaid⟩ := p.laid
  have htotal : 0 + p.first.set.ncol + widths p.rest = p.totalcols := by
    simp [JoinPlan.totalcols, widths]
  have hfirst : p.first.set.rows.map (fun r => writeCols p.first.base r (rowAlloc p.totalcols)) =
      p.first.set.rows.map (padTo p.totalcols) := by
    refine map_congr_left fun r hr => ?_
    have hroom : 0 + r.length ≤ p.totalcols := by
      rw [p.first.set.width r hr]
      omega
    rw [hbase, writeCols_rowAlloc hroom]
    rfl
  obtain ⟨out, hout, hperm⟩ := foldl_joinNext ev hlaid htotal
    fun l hl => (p.first.set.width l hl).trans (Nat.zero_add _).symm
  rw [joinBuild, hfirst, hout, joined, ← hperm, Multiset.filter_coe]
  simp

end Tdb.Sql
