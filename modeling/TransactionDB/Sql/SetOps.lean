import TransactionDB.Lib.Sorting
import TransactionDB.Sql.Grouping
import TransactionDB.Sql.Limit

/-!
# TransactionDB — set operations

`row_equal`, `in_rows`, `dup_row`, `run_single`, `sort_result` and `exec_setop_chain` of
`src/sql/tdb_exec_select.inc`. A chain of SELECTs is a list of nodes, each with its operator and a link to
the next one. ORDER BY and LIMIT at the end were parsed into the last node; they are taken off it before the
arms run and put back at the end. An arm runs without its link, which is put back as well.

A row is an array without a length. The loops read as many columns of each row as the first arm has; `none`
stands for a read behind the end of a row.

* `combine_eq`: the four operators on rows of one width.
* `setop_chain_correct`: the whole chain.
-/

namespace Tdb.Sql

open Distinct Ranked Sorting List

/-! ## Rows -/

/-- `row_equal`. -/
def rowEqual : Nat → Row → Row → Option Bool
  | 0, _, _ => some true
  | n + 1, a :: as, b :: bs => if sameValue a b then rowEqual n as bs else some false
  | _ + 1, _, _ => none

/-- `in_rows`. -/
def inRows (ncol : Nat) (row : Row) : List Row → Option Bool
  | [] => some false
  | r :: rs =>
    match rowEqual ncol r row with
    | none => none
    | some true => some true
    | some false => inRows ncol row rs

/-- `dup_row`. -/
def dupRow (ncol : Nat) (r : Row) : Option Row := if ncol ≤ r.length then some (r.take ncol) else none

/-- A loop that copies the rows that are to be kept. -/
def keepLoop (ncol : Nat) (keep : List Row → Row → Option Bool) : List Row → List Row → Option (List Row)
  | out, [] => some out
  | out, r :: rs =>
    match keep out r with
    | none => none
    | some false => keepLoop ncol keep out rs
    | some true =>
      match dupRow ncol r with
      | none => none
      | some d => keepLoop ncol keep (out ++ [d]) rs

/-- Not in the result yet. -/
def isNew (ncol : Nat) (out : List Row) (r : Row) : Option Bool := (inRows ncol r out).map not

/-- One operator: the rows so far and those of the next arm. -/
def combine (op : SetOp) (ncol : Nat) (acc tb : List Row) : Option (List Row) :=
  match op with
  | .unionAll => (keepLoop ncol (fun _ _ => some true) [] acc).bind fun out =>
      keepLoop ncol (fun _ _ => some true) out tb
  | .union => (keepLoop ncol (isNew ncol) [] acc).bind fun out => keepLoop ncol (isNew ncol) out tb
  | .intersect => keepLoop ncol (fun out r => (inRows ncol r tb).bind fun found =>
      if found then isNew ncol out r else some false) [] acc
  | .except => keepLoop ncol (fun out r => (inRows ncol r tb).bind fun found =>
      if found then some false else isNew ncol out r) [] acc

/-! ## Sorting the result -/

/-- The output column that a term of ORDER BY stands for: an ordinal, or the first column of that name. -/
def sortColumn (names : List Bytes) : Expr → Option Nat
  | .literal (.int i) =>
    let ci := (i.toInt32 - 1).toInt
    if 0 ≤ ci ∧ ci < names.length then some ci.toNat else none
  | .column _ name => names.findIdx? fun n => sameName n name
  | _ => none

/-- The key of a row; a term that stands for no column is NULL. -/
def resultKey (names : List Bytes) (o : OrderBy) (r : Row) : List Value :=
  o.exprs.map fun e =>
    match sortColumn names e with
    | some c => r.getD c .null
    | none => .null

/-- `sort_result`, with `qsort` as a parameter. -/
def sortResult (qsort : Sorter) (names : List Bytes) (o : OrderBy) (rows : List Row) : List Row :=
  (qsort.sort (fun a b => sortCmp o.desc a.1 b.1) (rows.map fun r => (resultKey names o r, r))).map Prod.snd

/-- The trailing ORDER BY, if there is one. -/
def orderRows (qsort : Sorter) (names : List Bytes) (rows : List Row) : Option OrderBy → List Row
  | none => rows
  | some o => sortResult qsort names o rows

/-! ## The chain -/

/-- The results of a statement; the number of columns is an `int`. -/
structure Results where
  ncol : Nat
  colnames : List (Option Bytes)
  rows : List Row
  named : colnames.length = ncol
  small : ncol < 2 ^ 31
  width : ∀ r ∈ rows, r.length = ncol

/-- The names of the columns of the result: "col" for a column without a name. -/
def Results.names (r : Results) : List Bytes := r.colnames.map fun n => n.getD "col".toUTF8.toList

/-- A node of the chain: its operator (`setop`, `setop_all`), whether it has a link (`setop_next`), ORDER BY,
LIMIT and OFFSET, and everything else. -/
structure SelNode (β : Type) where
  setop : Option SetOp
  linked : Bool
  order : Option OrderBy
  clause : LimitClause
  body : β

/-- How a chain ends without a result. -/
inductive Fault where
  | status (s : Status)
  /-- A row was read behind its end. -/
  | overread
  deriving DecidableEq, Repr

section

variable {β : Type}

def SelNode.detach (n : SelNode β) : SelNode β := { n with setop := none, linked := false }

def SelNode.strip (n : SelNode β) : SelNode β := { n with order := none, clause := ⟨false, none, none⟩ }

/-- The parser's chains: every node but the last has an operator and a link. -/
def Linked : List (SelNode β) → Prop
  | [] => False
  | [n] => n.setop = none ∧ n.linked = false
  | n :: m :: rest => n.setop.isSome ∧ n.linked ∧ Linked (m :: rest)

/-- A chain of the parser. -/
structure SelChain (β : Type) where
  nodes : List (SelNode β)
  linked : Linked nodes

/-- `run_single`: the node runs without its link, which is put back. -/
def runSingle (run : SelNode β → Except Status Results) (chain : List (SelNode β)) (i : Nat) :
    List (SelNode β) × Except Status Results :=
  match chain[i]? with
  | none => (chain, .error .error)
  | some n =>
    let detached := chain.set i n.detach
    (detached.modify i fun m => { m with setop := n.setop, linked := n.linked }, run n.detach)

/-- The walk along the links to the last node. -/
def lastPos : List (SelNode β) → Nat
  | [] => 0
  | n :: rest => if n.linked then lastPos rest + 1 else 0

/-- The loop over the operators, from the `i`-th node on. -/
def chainLoop (run : SelNode β → Except Status Results) (ncol : Nat) :
    Nat → Nat → List (SelNode β) → List Row → List (SelNode β) × Except Fault (List Row)
  | 0, _, chain, acc => (chain, .ok acc)
  | k + 1, i, chain, acc =>
    match chain[i]?.bind SelNode.setop with
    | none => (chain, .ok acc)
    | some op =>
      match runSingle run chain (i + 1) with
      | (chain, .error s) => (chain, .error (.status s))
      | (chain, .ok tb) =>
        match combine op ncol acc tb.rows with
        | none => (chain, .error .overread)
        | some acc => chainLoop run ncol k (i + 1) chain acc

/-- What the chain returns. -/
structure ChainResult where
  ncol : Nat
  names : List Bytes
  rows : List Row

/-- The chain between the stripping of the last node and its restoration. -/
def chainBody (qsort : Sorter) (run : SelNode β → Except Status Results) (evc : Expr → Value)
    (order : Option OrderBy) (clause : LimitClause) (chain : List (SelNode β)) :
    List (SelNode β) × Except Fault ChainResult :=
  match runSingle run chain 0 with
  | (chain, .error s) => (chain, .error (.status s))
  | (chain, .ok t0) =>
    match t0.rows.mapM (dupRow t0.ncol) with
    | none => (chain, .error .overread)
    | some acc =>
      match chainLoop run t0.ncol chain.length 0 chain acc with
      | (chain, .error e) => (chain, .error e)
      | (chain, .ok acc) =>
        (chain, .ok ⟨t0.ncol, t0.names, publishRows evc clause (orderRows qsort t0.names acc order)⟩)

/-- `exec_setop_chain`: the nodes afterwards, and the result. -/
def execSetopChain (qsort : Sorter) (run : SelNode β → Except Status Results) (evc : Expr → Value)
    (chain : List (SelNode β)) : List (SelNode β) × Except Fault ChainResult :=
  match chain[lastPos chain]? with
  | none => (chain, .error (.status .error))
  | some last =>
    let res := chainBody qsort run evc last.order last.clause (chain.modify (lastPos chain) SelNode.strip)
    (res.1.modify (lastPos chain) fun n => { n with order := last.order, clause := last.clause }, res.2)

end

/-! ## The operators -/

theorem rowEqual_eq : ∀ {n : Nat} {a b : Row}, a.length = n → b.length = n →
    rowEqual n a b = some (sameKey a b)
  | 0, [], [], _, _ => rfl
  | n + 1, a :: as, b :: bs, ha, hb => by
    have hrec := @rowEqual_eq n as bs (by simpa using ha) (by simpa using hb)
    rw [rowEqual, hrec]
    by_cases hab : sameValue a b <;> simp [sameKey, hab]

theorem inRows_eq {n : Nat} {row : Row} (hrow : row.length = n) : ∀ {rows : List Row},
    (∀ r ∈ rows, r.length = n) → inRows n row rows = some (rows.any (sameKey · row))
  | [], _ => rfl
  | r :: rs, h => by
    rw [inRows, rowEqual_eq (h r mem_cons_self) hrow]
    cases hr : sameKey r row with
    | true => simp [hr]
    | false => simp [hr, inRows_eq hrow (forall_mem_cons.mp h).2]

theorem dupRow_eq {n : Nat} {r : Row} (h : r.length = n) : dupRow n r = some r := by
  rw [dupRow, if_pos h.ge, take_of_length_le h.le]

theorem mapM_dupRow {n : Nat} : ∀ {rows : List Row}, (∀ r ∈ rows, r.length = n) →
    rows.mapM (dupRow n) = some rows
  | [], _ => rfl
  | r :: rs, h => by
    rw [mapM_cons, dupRow_eq (h r mem_cons_self), mapM_dupRow (forall_mem_cons.mp h).2]
    rfl

/-- A loop that copies all rows. -/
theorem keepLoop_all {n : Nat} : ∀ {rows out : List Row}, (∀ r ∈ rows, r.length = n) →
    keepLoop n (fun _ _ => some true) out rows = some (out ++ rows)
  | [], out, _ => by simp [keepLoop]
  | r :: rs, out, h => by
    rw [keepLoop, dupRow_eq (h r mem_cons_self)]
    dsimp only
    rw [keepLoop_all (forall_mem_cons.mp h).2, append_assoc]
    rfl

/-- A loop that copies the rows with a property that are not in the result yet. -/
theorem keepLoop_new {n : Nat} {keep : List Row → Row → Option Bool} {p : Row → Bool}
    (hkeep : ∀ out r, (∀ o ∈ out, o.length = n) → r.length = n →
      keep out r = some (p r && !out.any (sameKey · r))) :
    ∀ {rows out : List Row}, (∀ r ∈ rows, r.length = n) → (∀ o ∈ out, o.length = n) →
    keepLoop n keep out rows = some (out ++ keepNew sameKey out (rows.filter p))
  | [], out, _, _ => by simp [keepLoop, keepNew]
  | r :: rs, out, hrows, hout => by
    have hr : r.length = n := hrows r mem_cons_self
    have hrs : ∀ q ∈ rs, q.length = n := (forall_mem_cons.mp hrows).2
    rw [keepLoop, hkeep out r hout hr, dupRow_eq hr]
    by_cases hp : p r = true
    · rw [filter_cons_of_pos hp, keepNew, hp, Bool.true_and]
      cases hold : out.any (sameKey · r) with
      | true => simpa using keepLoop_new hkeep hrs hout
      | false =>
        have hout' : ∀ o ∈ out ++ [r], o.length = n := by
          intro o ho
          rcases mem_append.mp ho with ho | ho
          · exact hout o ho
          · rw [mem_singleton.mp ho, hr]
        have hrec := keepLoop_new hkeep hrs hout'
        simpa using hrec
    · rw [filter_cons_of_neg hp]
      simpa [hp] using keepLoop_new hkeep hrs hout

/-- What an operator should return, and the order in which the code does. -/
def setOpRows : SetOp → List Row → List Row → List Row
  | .unionAll, l, r => l ++ r
  | .union, l, r => firsts sameKey (l ++ r)
  | .intersect, l, r => firsts sameKey (l.filter fun x => r.any (sameKey · x))
  | .except, l, r => firsts sameKey (l.filter fun x => !r.any (sameKey · x))

section

variable (op : SetOp) {n : Nat} {l r : List Row} (hl : ∀ x ∈ l, x.length = n)
  (hr : ∀ x ∈ r, x.length = n)

include op hl hr

/-- **The operators on rows of one width.** -/
theorem combine_eq : combine op n l r = some (setOpRows op l r) := by
  have hnew : ∀ out x, (∀ o ∈ out, o.length = n) → x.length = n →
      isNew n out x = some (!out.any (sameKey · x)) := fun out x hout hx => by
    rw [isNew, inRows_eq hx hout]
    rfl
  have hnil : ∀ o ∈ ([] : List Row), o.length = n := by simp
  cases op with
  | unionAll => simp [combine, keepLoop_all hl, keepLoop_all hr, setOpRows]
  | union =>
    have hkeep : ∀ out x, (∀ o ∈ out, o.length = n) → x.length = n →
        isNew n out x = some (true && !out.any (sameKey · x)) := fun out x hout hx => by
      rw [hnew out x hout hx, Bool.true_and]
    have hfirst : ∀ o ∈ firsts sameKey l, o.length = n := fun o ho => hl o (mem_of_mem_firsts ho)
    have htrue : ∀ rows : List Row, rows.filter (fun _ => true) = rows := fun rows => by simp
    have h1 := keepLoop_new hkeep hl hnil
    rw [htrue, nil_append, ← firsts] at h1
    have h2 := keepLoop_new hkeep hr hfirst
    rw [htrue] at h2
    rw [combine, h1, Option.bind_some, h2, setOpRows, firsts, firsts, keepNew_append, nil_append]
  | intersect =>
    have h := @keepLoop_new n (fun out x => (inRows n x r).bind fun found =>
        if found then isNew n out x else some false) (fun x => r.any (sameKey · x))
      (fun out x hout hx => by
        rw [inRows_eq hx hr, Option.bind_some, hnew out x hout hx]
        cases r.any (sameKey · x) <;> rfl) l [] hl hnil
    exact h
  | except =>
    have h := @keepLoop_new n (fun out x => (inRows n x r).bind fun found =>
        if found then some false else isNew n out x) (fun x => !r.any (sameKey · x))
      (fun out x hout hx => by
        rw [inRows_eq hx hr, Option.bind_some, hnew out x hout hx]
        cases r.any (sameKey · x) <;> rfl) l [] hl hnil
    exact h

theorem length_setOpRows : ∀ x ∈ setOpRows op l r, x.length = n := by
  have hboth : ∀ x ∈ l ++ r, x.length = n := fun x hx => (mem_append.mp hx).elim (hl x) (hr x)
  intro x hx
  cases op with
  | unionAll => exact hboth x hx
  | union => exact hboth x (mem_of_mem_firsts hx)
  | intersect | except => exact hl x (mem_filter.mp (mem_of_mem_firsts hx)).1

end

/-! ## The meaning of the operators -/

/-- The distinct rows of some rows. -/
structure DistinctOf (pool out : List Row) : Prop where
  sublist : out.Sublist pool
  distinct : out.Pairwise fun x y => sameKey x y = false
  cover : ∀ x ∈ pool, ∃ y ∈ out, sameKey y x

/-- What an operator should return. -/
def SetOpOf : SetOp → List Row → List Row → List Row → Prop
  | .unionAll, l, r, out => out = l ++ r
  | .union, l, r, out => DistinctOf (l ++ r) out
  | .intersect, l, r, out => DistinctOf (l.filter fun x => r.any (sameKey · x)) out
  | .except, l, r, out => DistinctOf (l.filter fun x => !r.any (sameKey · x)) out

/-- The operators from left to right. -/
def FoldOps : List Row → List (SetOp × List Row) → List Row → Prop
  | l, [], out => out = l
  | l, (op, r) :: rest, out => ∃ mid, SetOpOf op l r mid ∧ FoldOps mid rest out

theorem sameValue_self (v : Value) : sameValue v v := by
  have hself : valueCompare v v .binary = .eq := @Std.ReflCmp.compare_self Value (valueCompare · · .binary) _ v
  simp [sameValue, hself]

theorem sameKey_self (r : Row) : sameKey r r := by simp [sameKey, sameValue_self]

theorem distinctOf_firsts (pool : List Row) : DistinctOf pool (firsts sameKey pool) where
  sublist := firsts_sublist pool
  distinct := pairwise_firsts pool
  cover x hx := by
    rcases @exists_of_mem Row sameKey [] pool x hx with ⟨s, hs, -⟩ | ⟨y, hy, rfl | hyx⟩
    · cases hs
    · exact ⟨y, hy, sameKey_self y⟩
    · exact ⟨y, hy, hyx⟩

theorem setOpOf_setOpRows (op : SetOp) (l r : List Row) : SetOpOf op l r (setOpRows op l r) := by
  cases op with
  | unionAll => rfl
  | union | intersect | except => exact distinctOf_firsts _

/-! ## The chain -/

section

variable {β : Type} {run : SelNode β → Except Status Results} {chain : List (SelNode β)}

/-- The link is put back. -/
theorem runSingle_eq {i : Nat} {n : SelNode β} (h : chain[i]? = some n) :
    runSingle run chain i = (chain, run n.detach) := by
  rw [runSingle, h]
  refine congrArg₂ Prod.mk (ext_getElem? fun j => ?_) rfl
  rw [getElem?_modify, getElem?_set]
  by_cases hij : i = j
  · subst hij
    obtain ⟨hlt, rfl⟩ := List.getElem?_eq_some_iff.mp h
    simp [hlt, SelNode.detach]
  · simp [hij]

/-- The operators of a chain, each with the node behind it as it runs. -/
def links : List (SelNode β) → List (SetOp × SelNode β)
  | n :: m :: rest =>
    match n.setop with
    | some op => (op, m.detach) :: links (m :: rest)
    | none => []
  | _ => []

/-- The loop over the operators, without the nodes. -/
def chainFold (run : SelNode β → Except Status Results) (ncol : Nat) :
    List Row → List (SetOp × SelNode β) → Except Fault (List Row)
  | acc, [] => .ok acc
  | acc, (op, n) :: rest =>
    match run n with
    | .error s => .error (.status s)
    | .ok tb =>
      match combine op ncol acc tb.rows with
      | none => .error .overread
      | some acc => chainFold run ncol acc rest

/-- The loop leaves the nodes as they are. -/
theorem chainLoop_eq {ncol : Nat} : ∀ {k i : Nat} {acc : List Row} {rest : List (SelNode β)},
    chain.drop i = rest → Linked rest → rest.length ≤ k →
    chainLoop run ncol k i chain acc = (chain, chainFold run ncol acc (links rest))
  | 0, _, _, [], _, hlinked, _ => hlinked.elim
  | k + 1, _, _, [], _, hlinked, _ => hlinked.elim
  | k + 1, i, acc, [n], hdrop, hlinked, _ => by
    have hi : chain[i]? = some n := by rw [← head?_drop, hdrop, head?_cons]
    rw [chainLoop, hi, Option.bind_some, hlinked.1]
    rfl
  | k + 1, i, acc, n :: m :: rest, hdrop, hlinked, hk => by
    obtain ⟨hop, -, hrest⟩ := hlinked
    obtain ⟨op, hop⟩ := Option.isSome_iff_exists.mp hop
    have hi : chain[i]? = some n := by rw [← head?_drop, hdrop, head?_cons]
    have hdrop' : chain.drop (i + 1) = m :: rest := by rw [← tail_drop, hdrop, tail_cons]
    have hi' : chain[i + 1]? = some m := by rw [← head?_drop, hdrop', head?_cons]
    have hlinks : links (n :: m :: rest) = (op, m.detach) :: links (m :: rest) := by rw [links, hop]
    rw [chainLoop, hi, Option.bind_some, hop, runSingle_eq hi', hlinks, chainFold]
    dsimp only
    cases hrun : run m.detach with
    | error s => rfl
    | ok tb =>
      dsimp only
      cases combine op ncol acc tb.rows with
      | none => rfl
      | some acc => exact chainLoop_eq hdrop' hrest (by simpa using hk)

/-- The last node of a chain. -/
theorem Linked.last : ∀ {chain : List (SelNode β)}, Linked chain →
    ∃ front last, chain = front ++ [last] ∧ lastPos chain = front.length
  | [n], h => ⟨[], n, rfl, by simp [lastPos, h.2]⟩
  | n :: m :: rest, h => by
    obtain ⟨front, last, heq, hpos⟩ := h.2.2.last
    refine ⟨n :: front, last, by rw [heq, cons_append], ?_⟩
    rw [lastPos, if_pos h.2.1, hpos, length_cons]

theorem modify_last {α : Type} (f : α → α) : ∀ (front : List α) (x : α),
    (front ++ [x]).modify front.length f = front ++ [f x]
  | [], _ => rfl
  | y :: front, x => by
    rw [cons_append, length_cons, modify_succ_cons, modify_last f front x, cons_append]

theorem Linked.strip : ∀ {front : List (SelNode β)} {last : SelNode β}, Linked (front ++ [last]) →
    Linked (front ++ [last.strip])
  | [], _, h => h
  | [_], _, h => ⟨h.1, h.2.1, h.2.2⟩
  | _ :: m :: front, last, h => ⟨h.1, h.2.1, @Linked.strip (m :: front) last h.2.2⟩

/-- The arms of a chain, as they run. -/
def arms (chain : List (SelNode β)) : List (SelNode β) :=
  (chain.modify (lastPos chain) SelNode.strip).map SelNode.detach

/-- The operators of a chain. -/
def operators (chain : List (SelNode β)) : List SetOp := chain.filterMap SelNode.setop

theorem links_eq : ∀ {chain : List (SelNode β)}, Linked chain →
    links chain = (operators chain).zip (chain.map SelNode.detach).tail
  | [n], h => by simp [links]
  | n :: m :: rest, h => by
    obtain ⟨op, hop⟩ := Option.isSome_iff_exists.mp h.1
    have hrec := links_eq h.2.2
    rw [map_cons, tail_cons] at hrec
    simp only [links, hop, hrec, operators, filterMap_cons, map_cons, tail_cons,
      zip_cons_cons]

/-- The result of the arms, without the nodes. -/
def armsResult (qsort : Sorter) (run : SelNode β → Except Status Results) (evc : Expr → Value)
    (order : Option OrderBy) (clause : LimitClause) (ops : List SetOp) :
    List (SelNode β) → Except Fault ChainResult
  | [] => .error (.status .error)
  | first :: others =>
    match run first with
    | .error s => .error (.status s)
    | .ok t0 =>
      match t0.rows.mapM (dupRow t0.ncol) with
      | none => .error .overread
      | some acc =>
        match chainFold run t0.ncol acc (ops.zip others) with
        | .error e => .error e
        | .ok acc =>
          .ok ⟨t0.ncol, t0.names, publishRows evc clause (orderRows qsort t0.names acc order)⟩

/-- **A chain leaves its nodes as they are, whatever the arms do.** -/
theorem execSetopChain_eq (qsort : Sorter) (run : SelNode β → Except Status Results) (evc : Expr → Value)
    {front : List (SelNode β)} {last : SelNode β} (h : Linked (front ++ [last]))
    (hpos : lastPos (front ++ [last]) = front.length) :
    execSetopChain qsort run evc (front ++ [last]) =
      (front ++ [last], armsResult qsort run evc last.order last.clause (operators (front ++ [last]))
        (arms (front ++ [last]))) := by
  have hlast : (front ++ [last])[front.length]? = some last := by simp
  have hops : operators (front ++ [last.strip]) = operators (front ++ [last]) := by
    simp [operators, SelNode.strip, filterMap_append, filterMap_cons]
  have hback : (front ++ [last.strip]).modify front.length
      (fun n => { n with order := last.order, clause := last.clause }) = front ++ [last] :=
    modify_last _ front last.strip
  have hbody : chainBody qsort run evc last.order last.clause (front ++ [last.strip]) =
      (front ++ [last.strip], armsResult qsort run evc last.order last.clause
        (operators (front ++ [last])) ((front ++ [last.strip]).map SelNode.detach)) := by
    have hlinked := h.strip
    rw [← hops]
    generalize front ++ [last.strip] = chain at hlinked
    obtain ⟨n, rest, rfl⟩ : ∃ n rest, chain = n :: rest := by
      cases chain with
      | nil => exact hlinked.elim
      | cons n rest => exact ⟨n, rest, rfl⟩
    rw [chainBody, runSingle_eq (show (n :: rest)[0]? = some n from rfl), map_cons, armsResult]
    cases run n.detach with
    | error s => rfl
    | ok t0 =>
      dsimp only
      cases t0.rows.mapM (dupRow t0.ncol) with
      | none => rfl
      | some acc =>
        dsimp only
        rw [chainLoop_eq (show (n :: rest).drop 0 = n :: rest from rfl) hlinked le_rfl, links_eq hlinked]
        rw [map_cons, tail_cons]
        cases chainFold run t0.ncol acc ((operators (n :: rest)).zip (rest.map SelNode.detach)) with
        | error e => rfl
        | ok acc => rfl
  rw [execSetopChain, hpos, hlast]
  dsimp only
  rw [modify_last SelNode.strip, hbody, arms, hpos, modify_last SelNode.strip, hback]

/-- Arms of one width. -/
theorem chainFold_ok {w : Nat} : ∀ {ops : List SetOp} {others : List (SelNode β)} {rs : List Results}
    {acc : List Row}, List.Forall₂ (fun n r => run n = .ok r) others rs → (∀ r ∈ rs, r.ncol = w) →
    (∀ x ∈ acc, x.length = w) →
    ∃ out, chainFold run w acc (ops.zip others) = .ok out ∧
      FoldOps acc (ops.zip (rs.map Results.rows)) out ∧ ∀ x ∈ out, x.length = w
  | [], _, _, acc, _, _, hacc => ⟨acc, rfl, rfl, hacc⟩
  | _ :: _, [], _, acc, .nil, _, hacc => ⟨acc, rfl, rfl, hacc⟩
  | op :: ops, n :: others, r :: rs, acc, .cons hrun hothers, hw, hacc => by
    have hr : ∀ x ∈ r.rows, x.length = w := fun x hx => (r.width x hx).trans (hw r mem_cons_self)
    obtain ⟨out, hfold, hops, hout⟩ := @chainFold_ok w ops others rs (setOpRows op acc r.rows) hothers
      (forall_mem_cons.mp hw).2 (length_setOpRows op hacc hr)
    refine ⟨out, ?_, ⟨_, setOpOf_setOpRows op acc r.rows, hops⟩, hout⟩
    rw [zip_cons_cons, chainFold, hrun]
    dsimp only
    rw [combine_eq op hacc hr]
    exact hfold

end

/-! ## ORDER BY -/

/-- A term of ORDER BY stands for an output column: its ordinal, or the first column of its name. -/
def Denotes (names : List Bytes) (e : Expr) (c : Nat) : Prop :=
  c < names.length ∧ ((∃ i : Int64, e = .literal (.int i) ∧ i.toInt = c + 1) ∨
    ∃ table name, e = .column table name ∧ names.findIdx? (fun n => sameName n name) = some c)

theorem sortColumn_of_denotes {names : List Bytes} (hsmall : names.length < 2 ^ 31) {e : Expr} {c : Nat}
    (h : Denotes names e c) : sortColumn names e = some c := by
  obtain ⟨hc, ⟨i, rfl, hi⟩ | ⟨table, name, rfl, hfind⟩⟩ := h
  · have hcut : i.toInt32.toInt = c + 1 := by
      rw [toInt32_of_lt (by omega) (by omega), hi]
    have hci : (i.toInt32 - 1).toInt = c := by
      rw [Int32.toInt_sub, hcut, Int32.toInt_one, Int.bmod_def]
      split <;> omega
    rw [sortColumn, hci, if_pos ⟨by omega, by omega⟩, Int.toNat_natCast]
  · exact hfind

/-- Rows as ORDER BY asks for them. -/
def SortedBy (names : List Bytes) (rows sorted : List Row) : Option OrderBy → Prop
  | none => sorted = rows
  | some o => sorted.Perm rows ∧ ∀ cols, List.Forall₂ (Denotes names) o.exprs cols →
      TotalOn (valueCompare · · .binary) rows.flatten →
      sorted.Pairwise fun a b => keyCmp o.desc (cols.map (a.getD · .null)) (cols.map (b.getD · .null)) ≠ .gt

theorem resultKey_eq {names : List Bytes} (hsmall : names.length < 2 ^ 31) {o : OrderBy} {cols : List Nat}
    (h : List.Forall₂ (Denotes names) o.exprs cols) (r : Row) :
    resultKey names o r = cols.map (r.getD · .null) := by
  rw [resultKey]
  generalize o.exprs = exprs at h
  induction h with
  | nil => rfl
  | cons he _ ih => rw [map_cons, map_cons, ih, sortColumn_of_denotes hsmall he]

theorem lt_of_denotes {names : List Bytes} {exprs : List Expr} {cols : List Nat}
    (h : List.Forall₂ (Denotes names) exprs cols) : ∀ c ∈ cols, c < names.length := by
  induction h with
  | nil => simp
  | cons he _ ih => exact forall_mem_cons.mpr ⟨he.1, ih⟩

theorem sortResult_perm (qsort : Sorter) (names : List Bytes) (o : OrderBy) (rows : List Row) :
    (sortResult qsort names o rows).Perm rows := by
  refine ((qsort.perm _ _).map Prod.snd).trans ?_
  rw [map_map]
  exact List.Perm.of_eq (map_id rows)

theorem sortedBy_orderRows (qsort : Sorter) {names : List Bytes} (hsmall : names.length < 2 ^ 31)
    {rows : List Row} (hrows : ∀ r ∈ rows, r.length = names.length) (order : Option OrderBy) :
    SortedBy names rows (orderRows qsort names rows order) order := by
  cases order with
  | none => rfl
  | some o =>
    refine ⟨sortResult_perm qsort names o rows, fun cols hcols htotal => ?_⟩
    have hkey := resultKey_eq hsmall hcols
    -- the values of the keys are values of the rows
    have hvals : ∀ v ∈ (rows.map (resultKey names o)).flatten, v ∈ rows.flatten := by
      intro v hv
      obtain ⟨k, hk, hv⟩ := mem_flatten.mp hv
      obtain ⟨r, hr, rfl⟩ := mem_map.mp hk
      rw [hkey r] at hv
      obtain ⟨c, hc, rfl⟩ := mem_map.mp hv
      have hlt : c < r.length := by
        rw [hrows r hr]
        exact lt_of_denotes hcols c hc
      have hget : r.getD c .null = r[c] := by simp [hlt]
      rw [hget]
      exact mem_flatten_of_mem hr (getElem_mem hlt)
    have hkeys : TotalOn (keyCmp o.desc) (rows.map (resultKey names o)) := by
      refine totalOn_keys (htotal.mono hvals) fun k hk => ?_
      obtain ⟨r, -, rfl⟩ := mem_map.mp hk
      rw [resultKey, length_map, o.same]
    have hpairs : TotalOn (fun a b : List Value × Row => sortCmp o.desc a.1 b.1)
        (rows.map fun r => (resultKey names o r, r)) := by
      intro a ha b hb c hc
      obtain ⟨r, hr, rfl⟩ := mem_map.mp ha
      obtain ⟨s, hs, rfl⟩ := mem_map.mp hb
      obtain ⟨t, ht, rfl⟩ := mem_map.mp hc
      exact hkeys _ (mem_map_of_mem hr) _ (mem_map_of_mem hs) _ (mem_map_of_mem ht)
    have : Std.OrientedCmp (fun a b : List Value × Row => sortCmp o.desc a.1 b.1) := ⟨keyCmp_swap o.desc _ _⟩
    change (sortResult qsort names o rows).Pairwise _
    rw [sortResult, pairwise_map]
    refine (qsort.sorted _ _ hpairs).imp_of_mem fun {a b} ha hb hab => ?_
    obtain ⟨r, -, rfl⟩ := mem_map.mp ((qsort.perm _ _).subset ha)
    obtain ⟨s, -, rfl⟩ := mem_map.mp ((qsort.perm _ _).subset hb)
    rw [← hkey r, ← hkey s]
    exact hab

/-! ## The result -/

def SelChain.order {β : Type} (c : SelChain β) : Option OrderBy :=
  c.nodes[lastPos c.nodes]?.bind SelNode.order

def SelChain.clause {β : Type} (c : SelChain β) : LimitClause :=
  (c.nodes[lastPos c.nodes]?.map SelNode.clause).getD ⟨false, none, none⟩

/-- What a chain should return, by the results of its arms: the operators from left to right, sorted by the
ORDER BY and cut by the LIMIT and OFFSET at its end. -/
def ChainOf (evc : Expr → Value) (ops : List SetOp) (order : Option OrderBy) (clause : LimitClause) :
    List Results → ChainResult → Prop
  | [], _ => False
  | r :: rs, res =>
    res.ncol = r.ncol ∧ res.names = r.names ∧
      ∃ combined sorted, FoldOps r.rows (ops.zip (rs.map Results.rows)) combined ∧
        SortedBy res.names combined sorted order ∧
        res.rows = cut (clause.limitInt evc) (clause.offsetInt evc) sorted

/-- A chain of arms of one width returns what its operators, its ORDER BY and its LIMIT come to, and whatever
its arms do it leaves the nodes as it found them. -/
theorem setop_chain_correct (qsort : Sorter) {β : Type} (run : SelNode β → Except Status Results)
    (evc : Expr → Value) (c : SelChain β) :
    (execSetopChain qsort run evc c.nodes).1 = c.nodes ∧
      ∀ (rs : List Results) (w : Nat), List.Forall₂ (fun n r => run n = .ok r) (arms c.nodes) rs →
        (∀ r ∈ rs, r.ncol = w) →
        ∃ res, (execSetopChain qsort run evc c.nodes).2 = .ok res ∧
          ChainOf evc (operators c.nodes) c.order c.clause rs res := by
  obtain ⟨nodes, hlinked⟩ := c
  obtain ⟨front, last, rfl, hpos⟩ := hlinked.last
  have hlast : (front ++ [last])[front.length]? = some last := by simp
  have hexec := execSetopChain_eq qsort run evc hlinked hpos
  simp only [SelChain.order, SelChain.clause, hpos, hlast, hexec, Option.bind_some, Option.map_some,
    Option.getD_some, true_and]
  intro rs w hruns hw
  obtain ⟨first, others, harms⟩ : ∃ first others, arms (front ++ [last]) = first :: others := by
    have hne : arms (front ++ [last]) ≠ [] := by
      rw [arms, hpos, modify_last]
      simp
    exact exists_cons_of_ne_nil hne
  rw [harms] at hruns ⊢
  cases hruns with
  | @cons _ r _ rs hrun hothers =>
    obtain rfl : r.ncol = w := hw r mem_cons_self
    obtain ⟨combined, hfold, hops, hwidth⟩ := @chainFold_ok β run r.ncol (operators (front ++ [last])) others rs
      r.rows hothers (forall_mem_cons.mp hw).2 r.width
    have hcopy : r.rows.mapM (dupRow r.ncol) = some r.rows := mapM_dupRow r.width
    have hnamed : r.names.length = r.ncol := by rw [Results.names, length_map, r.named]
    have hsorted := sortedBy_orderRows qsort (hnamed.trans_lt r.small)
      (fun x hx => (hwidth x hx).trans hnamed.symm) last.order
    refine ⟨⟨r.ncol, r.names, publishRows evc last.clause (orderRows qsort r.names combined last.order)⟩, ?_,
      rfl, rfl, combined, _, hops, hsorted, ?_⟩
    · rw [armsResult, hrun]
      dsimp only
      rw [hcopy]
      dsimp only
      rw [hfold]
    · rw [publishRows, publish_eq, Nat.cast_zero, Int.sub_zero]

/-- One column of integers. -/
def intResults (ns : List Int64) : Results where
  ncol := 1
  colnames := [none]
  rows := ns.map fun n => [.int n]
  named := rfl
  small := by decide
  width r hr := by
    obtain ⟨n, -, rfl⟩ := mem_map.mp hr
    rfl

/-- Two SELECTs with UNION between them and `ORDER BY 1 DESC LIMIT 2` at the end. -/
def unionChain : SelChain Results where
  nodes := [⟨some .union, true, none, ⟨false, none, none⟩, intResults [3, 1, 3]⟩,
    ⟨none, false, some ⟨[.literal (.int 1)], [true], rfl⟩, ⟨true, some (.literal (.int 2)), none⟩,
      intResults [1, 2]⟩]
  linked := by simp [Linked]

theorem setop_chain_correct_union :
    (execSetopChain insertionSorter (fun n => .ok n.body) literalValue unionChain.nodes).1 =
        unionChain.nodes ∧
      ∃ res, (execSetopChain insertionSorter (fun n => .ok n.body) literalValue unionChain.nodes).2 =
          .ok res ∧
        ChainOf literalValue [.union] unionChain.order unionChain.clause
          [intResults [3, 1, 3], intResults [1, 2]] res := by
  have h := setop_chain_correct insertionSorter (fun n => .ok n.body) literalValue unionChain
  exact ⟨h.1, h.2 [intResults [3, 1, 3], intResults [1, 2]] 1 (.cons rfl (.cons rfl .nil)) (by simp [intResults])⟩

end Tdb.Sql
