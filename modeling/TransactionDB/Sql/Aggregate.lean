import TransactionDB.Lib.Distinct
import TransactionDB.Sql.Eval
import TransactionDB.Value.Order

/-!
# TransactionDB — accumulators of aggregates

`accum_update` and `accum_result` of `src/sql/tdb_exec_select.inc`. An aggregate of a group has one
accumulator, which is given the rows of the group one after the other. NULL is passed over, and with
DISTINCT so is a value that is equal to one seen before; what is left (`counted`) decides the result.

GROUP_CONCAT writes a separator if its buffer is not empty, and is NULL if the buffer is empty at the end.
Empty texts at the front therefore lose their separators (`group_concat_iff`).
-/

namespace Tdb.Sql

open Distinct List

variable {call : AggCall}

/-- The call of an aggregate: `EX_AGG`. -/
structure AggCall where
  name : Bytes
  distinct : Bool
  args : List Expr

/-- `accum`. -/
structure Accum where
  count : Nat
  sum : Float
  sumIsInt : Bool
  isum : Int64
  mn : Value
  mx : Value
  has : Bool
  /-- DISTINCT: the values already counted. -/
  seen : List Value
  gc : Bytes
  gcInit : Bool
  gcSep : Option Bytes

/-- An accumulator as the executors start it. -/
def Accum.new : Accum := ⟨0, 0, true, 0, .null, .null, false, [], [], false, none⟩

/-- The name of a function, in any case. -/
def AggCall.isNamed (call : AggCall) (name : String) : Bool := sameName call.name name.toUTF8.toList

/-- Whether the call counts rows and not values: `COUNT(*)`, or a call without arguments. -/
def AggCall.countsRows (call : AggCall) : Bool :=
  match call.args with
  | [] => true
  | [.star] => true
  | _ => false

/-! ## One value -/

/-- The count, the sums and the bounds. -/
def Accum.add (lib : TypeLib) (ac : Accum) (v : Value) : Accum :=
  { ac with
    count := ac.count + 1
    isum := match v with
      | .int i => ac.isum + i
      | _ => ac.isum
    sumIsInt := match v with
      | .int _ => ac.sumIsInt
      | _ => false
    sum := ac.sum + realOf lib v
    mn := if ac.has then (if valueCompare v ac.mn .binary = .lt then v else ac.mn) else v
    mx := if ac.has then (if valueCompare v ac.mx .binary = .gt then v else ac.mx) else v
    has := true }

/-- The separator: that of the first value. -/
def gcSeparator (lib : TypeLib) (ev : Expr → Value) (call : AggCall) : Bytes :=
  match call.args with
  | _ :: sep :: _ => ((ev sep).asText lib).getD ",".toUTF8.toList
  | _ => ",".toUTF8.toList

/-- GROUP_CONCAT: a separator if there is something in front of it, and the text. -/
def Accum.concat (ac : Accum) (sep text : Bytes) : Accum :=
  { ac with
    gcInit := true
    gcSep := some sep
    gc := (if ac.gc ≠ [] then ac.gc ++ sep else ac.gc) ++ text }

/-- What is done with a value that counts. -/
def Accum.take (lib : TypeLib) (call : AggCall) (ev : Expr → Value) (ac : Accum) (v : Value) : Accum :=
  let ac := { ac with seen := if call.distinct then ac.seen ++ [v] else ac.seen }
  let ac := ac.add lib v
  if call.isNamed "group_concat" then
    ac.concat (ac.gcSep.getD (gcSeparator lib ev call)) ((v.asText lib).getD [])
  else ac

/-- `accum_update`; `ev` evaluates an expression on the row. -/
def accumUpdate (lib : TypeLib) (call : AggCall) (ac : Accum) (ev : Expr → Value) : Accum :=
  if call.countsRows then { ac with count := ac.count + 1 }
  else
    match call.args with
    | [] => ac
    | arg :: _ =>
      let v := ev arg
      if v = .null then ac
      else if call.distinct ∧ ac.seen.any (fun s => valueCompare v s .binary = .eq) then ac
      else ac.take lib call ev v

/-- `accum_result`. -/
def accumResult (call : AggCall) (ac : Accum) : Value :=
  if call.isNamed "count" then .int (Int64.ofNat ac.count)
  else if call.isNamed "sum" ∨ call.isNamed "total" then
    if ac.count = 0 ∧ call.isNamed "sum" then .null
    else if ac.sumIsInt then .int ac.isum
    else .real ac.sum.toBits
  else if call.isNamed "avg" then
    if ac.count = 0 then .null else .real (ac.sum / ac.count.toFloat).toBits
  else if call.isNamed "min" then (if ac.has then ac.mn else .null)
  else if call.isNamed "max" then (if ac.has then ac.mx else .null)
  else if call.isNamed "group_concat" then
    if ¬ac.gcInit ∨ ac.gc = [] then .null else .text ac.gc
  else .null

/-- The accumulator of a call after some rows. -/
def accumRun (lib : TypeLib) (call : AggCall) (rows : List (Expr → Value)) : Accum :=
  rows.foldl (accumUpdate lib call) .new

/-! ## The values that count -/

/-- Two values that DISTINCT takes for one. -/
def sameValue (x y : Value) : Bool := valueCompare x y .binary = .eq

theorem sameValue_comm (x y : Value) : sameValue x y = sameValue y x := by
  rw [Bool.eq_iff_iff, sameValue, sameValue, decide_eq_true_eq, decide_eq_true_eq]
  exact @Std.OrientedCmp.eq_comm Value (valueCompare · · .binary) _ x y

/-- The values of the argument that are not NULL, without duplicates for DISTINCT. -/
def AggCall.counted (call : AggCall) (rows : List (Expr → Value)) : List Value :=
  match call.args with
  | [] => []
  | arg :: _ =>
    let vals := (rows.map fun ev => ev arg).filter (· ≠ .null)
    if call.distinct then firsts sameValue vals else vals

theorem counted_nil (call : AggCall) : call.counted [] = [] := by
  unfold AggCall.counted
  split
  · rfl
  · split <;> rfl

/-- One more row has one more value, unless that is NULL or was counted before. -/
theorem counted_concat {arg : Expr} {more : List Expr} (hargs : call.args = arg :: more)
    (rows : List (Expr → Value)) (ev : Expr → Value) :
    call.counted (rows ++ [ev]) =
      if ev arg = .null ∨ call.distinct ∧ (call.counted rows).any (sameValue · (ev arg)) then
        call.counted rows
      else call.counted rows ++ [ev arg] := by
  simp only [AggCall.counted, hargs, map_append, map_cons, map_nil, filter_append]
  by_cases hnull : ev arg = .null
  · simp [hnull]
  · by_cases hdist : call.distinct = true
    · simp only [hdist, if_true, true_and, hnull, false_or, filter_cons, ne_eq, not_false_eq_true,
        decide_true, filter_nil, firsts_append_singleton]
    · simp [hdist, hnull]

/-! ## What an accumulator holds -/

def Value.intPart : Value → Int
  | .int i => i.toInt
  | _ => 0

def Value.isInt : Value → Bool
  | .int _ => true
  | _ => false

/-- The first of the values that no other is beyond, in one direction. -/
def extreme (dir : Ordering) : List Value → Value
  | [] => .null
  | v :: vs => vs.foldl (fun m v => if valueCompare v m .binary = dir then v else m) v

/-- What GROUP_CONCAT has in its buffer after some texts. -/
def concatTexts (sep : Bytes) (texts : List Bytes) : Bytes :=
  texts.foldl (fun gc text => (if gc ≠ [] then gc ++ sep else gc) ++ text) []

/-- The accumulator after the values `vs`. -/
structure Accum.Holds (lib : TypeLib) (call : AggCall) (vs : List Value) (ac : Accum) : Prop where
  count : ac.count = vs.length
  seen : ac.seen = if call.distinct then vs else []
  isum : ac.isum = Int64.ofInt (vs.map Value.intPart).sum
  sumIsInt : ac.sumIsInt = vs.all Value.isInt
  has : ac.has = !vs.isEmpty
  mn : ac.mn = extreme .lt vs
  mx : ac.mx = extreme .gt vs

theorem extreme_concat (dir : Ordering) (vs : List Value) (v : Value) :
    extreme dir (vs ++ [v]) = if vs.isEmpty then v
      else if valueCompare v (extreme dir vs) .binary = dir then v else extreme dir vs := by
  cases vs with
  | nil => rfl
  | cons w ws =>
    rw [cons_append, extreme, foldl_append]
    rfl

theorem Accum.Holds.new (lib : TypeLib) (call : AggCall) : Accum.new.Holds lib call [] where
  count := rfl
  seen := by simp [Accum.new]
  isum := rfl
  sumIsInt := rfl
  has := rfl
  mn := rfl
  mx := rfl

/-- A value that counts. -/
theorem Accum.Holds.take {lib : TypeLib} {vs : List Value} {ac : Accum} (h : ac.Holds lib call vs)
    (ev : Expr → Value) (v : Value) :
    (ac.take lib call ev v).Holds lib call (vs ++ [v]) := by
  have hadd : (Accum.add lib { ac with seen := if call.distinct then ac.seen ++ [v] else ac.seen } v).Holds
      lib call (vs ++ [v]) := by
    constructor
    · simp [Accum.add, h.count]
    · simp only [Accum.add, h.seen]
      split <;> rfl
    · simp only [Accum.add, h.isum, map_append, sum_append, Int64.ofInt_add]
      cases v <;> simp [Value.intPart]
    · simp only [Accum.add, h.sumIsInt, all_append]
      cases v <;> simp [Value.isInt]
    · simp [Accum.add]
    · simp only [Accum.add, h.has, h.mn, extreme_concat]
      cases vs <;> simp
    · simp only [Accum.add, h.has, h.mx, extreme_concat]
      cases vs <;> simp
  unfold Accum.take
  dsimp only
  split
  · exact ⟨hadd.count, hadd.seen, hadd.isum, hadd.sumIsInt, hadd.has, hadd.mn, hadd.mx⟩
  · exact hadd

/-- One more row: its value counts or changes nothing. -/
theorem accumUpdate_cases {lib : TypeLib} (hrows : call.countsRows = false)
    {rows : List (Expr → Value)} {ac : Accum} (h : ac.Holds lib call (call.counted rows))
    (ev : Expr → Value) :
    (call.counted (rows ++ [ev]) = call.counted rows ∧ accumUpdate lib call ac ev = ac) ∨
      ∃ v, call.counted (rows ++ [ev]) = call.counted rows ++ [v] ∧
        accumUpdate lib call ac ev = ac.take lib call ev v := by
  cases hargs : call.args with
  | nil => simp [AggCall.countsRows, hargs] at hrows
  | cons arg more =>
    have hseen : (call.distinct ∧ ac.seen.any (fun s => valueCompare (ev arg) s .binary = .eq)) ↔
        (call.distinct ∧ (call.counted rows).any (sameValue · (ev arg))) := by
      refine and_congr_right fun hdist => ?_
      rw [h.seen, if_pos hdist]
      simp only [sameValue_comm _ (ev arg)]
      rfl
    simp only [counted_concat hargs, accumUpdate, hrows, hargs, Bool.false_eq_true, if_false, hseen]
    by_cases hnull : ev arg = .null
    · exact Or.inl (by simp [hnull])
    · by_cases hold : call.distinct ∧ (call.counted rows).any (sameValue · (ev arg))
      · exact Or.inl (by simp only [hnull, if_false, if_pos hold, if_pos (Or.inr hold), and_self])
      · refine Or.inr ⟨ev arg, ?_⟩
        simp only [hnull, false_or, if_neg hold, if_false, and_self]

theorem accumRun_concat (lib : TypeLib) (call : AggCall) (rows : List (Expr → Value)) (ev : Expr → Value) :
    accumRun lib call (rows ++ [ev]) = accumUpdate lib call (accumRun lib call rows) ev := by
  rw [accumRun, foldl_append]
  rfl

/-- **An accumulator holds what the counted values come to.** -/
theorem accumRun_holds (lib : TypeLib) (hrows : call.countsRows = false)
    (rows : List (Expr → Value)) : (accumRun lib call rows).Holds lib call (call.counted rows) := by
  induction rows using List.reverseRecOn with
  | nil =>
    rw [counted_nil]
    exact Accum.Holds.new lib call
  | append_singleton rows ev ih =>
    rw [accumRun_concat]
    rcases accumUpdate_cases hrows ih ev with ⟨hvs, hac⟩ | ⟨v, hvs, hac⟩
    · rw [hvs, hac]
      exact ih
    · rw [hvs, hac]
      exact ih.take ev v

/-! ## GROUP_CONCAT -/

/-- The text of a value that is not NULL. -/
def textOf (lib : TypeLib) (v : Value) : Bytes := (v.asText lib).getD []

theorem accumRun_gc (lib : TypeLib) (hname : call.isNamed "group_concat")
    (hrows : call.countsRows = false) {sep : Bytes} : ∀ {rows : List (Expr → Value)},
    (∀ ev ∈ rows, gcSeparator lib ev call = sep) →
    (accumRun lib call rows).gc = concatTexts sep ((call.counted rows).map (textOf lib)) ∧
      (accumRun lib call rows).gcInit = !(call.counted rows).isEmpty ∧
      (accumRun lib call rows).gcSep = (if (call.counted rows).isEmpty then none else some sep) := by
  intro rows
  induction rows using List.reverseRecOn with
  | nil =>
    intro _
    rw [counted_nil]
    exact ⟨rfl, rfl, rfl⟩
  | append_singleton rows ev ih =>
    intro hsep
    obtain ⟨hgc, hinit, hgcsep⟩ := ih (forall_mem_append.mp hsep).1
    rw [accumRun_concat]
    rcases accumUpdate_cases hrows (accumRun_holds lib hrows rows) ev with ⟨hvs, hac⟩ | ⟨v, hvs, hac⟩
    · rw [hvs, hac]
      exact ⟨hgc, hinit, hgcsep⟩
    · -- the separator was taken from the first value, which has the same
      have hchosen : (accumRun lib call rows).gcSep.getD (gcSeparator lib ev call) = sep := by
        rw [hgcsep, hsep ev (by simp)]
        split <;> rfl
      rw [hvs, hac, Accum.take]
      simp only [hname, if_true, Accum.concat, Accum.add, hchosen, hgc]
      refine ⟨?_, by simp, by simp⟩
      rw [map_append, concatTexts, concatTexts, foldl_append]
      rfl

theorem concatTexts_nil_cons (sep : Bytes) (texts : List Bytes) :
    concatTexts sep ([] :: texts) = concatTexts sep texts := rfl

/-- Behind a text that is not empty, each text gets its separator. -/
theorem concatTexts_cons {t : Bytes} (ht : t ≠ []) (sep : Bytes) (texts : List Bytes) :
    concatTexts sep (t :: texts) = List.intercalate sep (t :: texts) := by
  have hfold : ∀ (texts : List Bytes) (gc : Bytes), gc ≠ [] →
      texts.foldl (fun gc text => (if gc ≠ [] then gc ++ sep else gc) ++ text) gc =
        List.intercalate sep (gc :: texts) := by
    intro texts
    induction texts with
    | nil =>
      intro gc _
      simp [List.intercalate]
    | cons u us ih =>
      intro gc hgc
      rw [foldl_cons, if_pos hgc, ih _ (by simp [hgc]), intercalate_cons_cons]
      cases us with
      | nil => simp [List.intercalate]
      | cons w ws => simp only [intercalate_cons_cons, append_assoc]
  exact hfold texts t ht

/-- Where a text is not empty, the separators behind the empty texts in front of it are missing. -/
theorem intercalate_eq (sep : Bytes) : ∀ {texts : List Bytes}, (∃ t ∈ texts, t ≠ []) →
    List.intercalate sep texts =
      (List.replicate (texts.takeWhile (· = [])).length sep).flatten ++ concatTexts sep texts
  | [], h => by simp at h
  | t :: texts, h => by
    by_cases ht : t = []
    · subst ht
      have hrest : ∃ t ∈ texts, t ≠ [] := by simpa using h
      cases texts with
      | nil => simp at hrest
      | cons u us =>
        have hwhile : ([] :: u :: us : List Bytes).takeWhile (· = []) =
            [] :: (u :: us).takeWhile (· = []) := by simp [takeWhile_cons]
        rw [concatTexts_nil_cons, intercalate_cons_cons, intercalate_eq sep hrest, hwhile,
          length_cons, replicate_succ, flatten_cons, nil_append, append_assoc]
    · rw [concatTexts_cons ht, takeWhile_cons_of_neg (by simpa using ht)]
      simp

theorem concatTexts_eq_nil (sep : Bytes) : ∀ {texts : List Bytes},
    concatTexts sep texts = [] ↔ ∀ t ∈ texts, t = []
  | [] => by simp [concatTexts]
  | t :: texts => by
    by_cases ht : t = []
    · subst ht
      rw [concatTexts_nil_cons, concatTexts_eq_nil sep]
      simp
    · rw [concatTexts_cons ht]
      cases texts with
      | nil => simp [List.intercalate]
      | cons u us => simp [intercalate_cons_cons, ht]

/-- The first text is not empty, or there is nothing to write behind it. -/
def KeepsSeparators (sep : Bytes) (texts : List Bytes) : Prop :=
  texts = [] ∨ (∃ t ∈ texts, t ≠ []) ∧ (texts.head? ≠ some [] ∨ sep = [])

/-- What GROUP_CONCAT of some values should be: NULL without values, and otherwise their texts with a
separator between every two. -/
def joinedValue (lib : TypeLib) (sep : Bytes) (vs : List Value) : Value :=
  if vs = [] then .null else .text (List.intercalate sep (vs.map (textOf lib)))

theorem concatTexts_joined_iff (sep : Bytes) {texts : List Bytes} (h : ∃ t ∈ texts, t ≠ []) :
    concatTexts sep texts = List.intercalate sep texts ↔ texts.head? ≠ some [] ∨ sep = [] := by
  rw [intercalate_eq sep h, self_eq_append_left]
  cases texts with
  | nil => simp at h
  | cons t texts =>
    by_cases ht : t = []
    · simp [ht]
    · simp [ht]

/-- A name is not another one. -/
theorem isNamed_others {a : String} (h : call.isNamed a) {names : List String}
    (hne : ∀ b ∈ names, sameName a.toUTF8.toList b.toUTF8.toList = false) :
    ∀ b ∈ names, call.isNamed b = false := by
  intro b hb
  have hne := hne b hb
  simp only [AggCall.isNamed, sameName, decide_eq_true_eq, decide_eq_false_iff_not] at h hne ⊢
  rwa [h]

theorem accumResult_gc (hname : call.isNamed "group_concat") (ac : Accum) :
    accumResult call ac = if ¬ac.gcInit ∨ ac.gc = [] then .null else .text ac.gc := by
  have hother := @isNamed_others call _ hname ["count", "sum", "total", "avg", "min", "max"] (by decide +kernel)
  simp [accumResult, hother, hname]

/-- GROUP_CONCAT with a constant separator is the join of the texts exactly if the first text is not empty,
or the separator is and some text is not. -/
theorem group_concat_iff (lib : TypeLib) {call : AggCall} (hname : call.isNamed "group_concat")
    (hrows : call.countsRows = false) {sep : Bytes} {rows : List (Expr → Value)}
    (hsep : ∀ ev ∈ rows, gcSeparator lib ev call = sep) :
    accumResult call (accumRun lib call rows) = joinedValue lib sep (call.counted rows) ↔
      KeepsSeparators sep ((call.counted rows).map (textOf lib)) := by
  obtain ⟨hgc, hinit, -⟩ := accumRun_gc lib hname hrows hsep
  rw [accumResult_gc hname, hgc, hinit]
  generalize call.counted rows = vs
  unfold joinedValue KeepsSeparators
  by_cases hvs : vs = []
  · simp [hvs]
  · have hmap : vs.map (textOf lib) ≠ [] := by simpa using hvs
    simp only [hvs, hmap, if_false, false_or]
    by_cases hall : ∀ t ∈ vs.map (textOf lib), t = []
    · -- the buffer is empty although there are values
      have hno : ¬∃ t ∈ vs.map (textOf lib), t ≠ [] := by
        rintro ⟨t, ht, hne⟩
        exact hne (hall t ht)
      rw [if_pos (Or.inr ((concatTexts_eq_nil sep).mpr hall))]
      exact iff_of_false (by simp) fun h => hno h.1
    · have hsome : ∃ t ∈ vs.map (textOf lib), t ≠ [] := by
        simpa only [not_forall, exists_prop] using hall
      have hne : ¬concatTexts sep (vs.map (textOf lib)) = [] := fun h => hall ((concatTexts_eq_nil sep).mp h)
      rw [if_neg (by simp [hvs, hne]), Value.text.injEq, concatTexts_joined_iff sep hsome]
      exact ⟨fun h => ⟨hsome, h⟩, And.right⟩

/-- A row of one column. -/
def oneColumn (v : Value) : Expr → Value
  | .column _ _ => v
  | .literal l => l
  | _ => .null

/-- `GROUP_CONCAT(a, ',')`. -/
def concatCall : AggCall := ⟨"GROUP_CONCAT".toUTF8.toList, false, [.column none [97], .literal (.text [44])]⟩

/-- An empty text in the middle, and a NULL: "a,,b". -/
theorem group_concat_middle :
    accumResult concatCall (accumRun bareLib concatCall
      [oneColumn (.text [97]), oneColumn .null, oneColumn (.text []), oneColumn (.text [98])]) =
      .text [97, 44, 44, 98] := by
  have hsep : ∀ ev ∈ [oneColumn (.text [97]), oneColumn .null, oneColumn (.text []), oneColumn (.text [98])],
      gcSeparator bareLib ev concatCall = [44] := by
    simp only [forall_mem_cons]
    decide +kernel
  rw [(group_concat_iff bareLib (by decide +kernel) rfl hsep).mpr (Or.inr (by decide +kernel))]
  decide +kernel

/-- An empty text at the front: "b" where ",b" is right. -/
theorem group_concat_front :
    accumResult concatCall (accumRun bareLib concatCall [oneColumn (.text []), oneColumn (.text [98])]) =
        .text [98] ∧
      joinedValue bareLib [44] (concatCall.counted [oneColumn (.text []), oneColumn (.text [98])]) =
        .text [44, 98] := by
  decide +kernel

end Tdb.Sql
