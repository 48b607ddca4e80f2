import TransactionDB.Engine.Chains
import TransactionDB.Sql.StatementCalls

/-!
# TransactionDB — an integer primary key stands for the row id

A single integer key is stored in its column and decides the row id of a new row. `Aliased` says
that the two agree in every stored version: the key of a row is its row id, and a link into the
history leads to a version with the same key. Then whoever reads sees rows whose keys are their row
ids, so no key twice.

Inserts and removals keep this. `UPDATE` and `ON CONFLICT DO UPDATE` store the changed row under the
row id it had, so they keep it only if they do not change the key. A key that is assigned is the
largest row id plus one, which is 0 after the key -1.

* `TxnStmt.keeps_aliased`: one statement; `key_aliases_rowid`: all of them.
-/

namespace Tdb.Exec

open List

variable {rec : Bytes} {rowid : UInt64} {row : Row}

/-- The value of column `k` in a record. -/
def keyCell (k : Nat) (rec : Bytes) : Option Value :=
  match recordDecode rec 64 with
  | .ok (vals, _) => some (cellAt vals k)
  | .error _ => none

/-! ## The engine -/

/-- Row ids and keys agree in every version. -/
structure Aliased (k : Nat) (tab : Table) : Prop where
  row : ∀ (r : UInt64) (v : Bytes), tab.main[r]? = some v →
    keyCell k (getRowhdr v).2 = some (.int r.toInt64)
  link : ∀ (r : UInt64) (v : Bytes), tab.main[r]? = some v ∨ tab.hist[r]? = some v →
    (getRowhdr v).1.prev ≠ 0 → ∃ u, tab.hist[(getRowhdr v).1.prev]? = some u ∧
      keyCell k (getRowhdr u).2 = keyCell k (getRowhdr v).2

section Engine

variable {k : Nat} {tab : Table}

theorem aliased_empty (k : Nat) : Aliased k .empty := by
  refine ⟨fun r v h => ?_, fun r v h => ?_⟩
  · simp [Table.empty] at h
  · rcases h with h | h <;> simp [Table.empty] at h

section

variable (h : Aliased k tab)

include h

theorem Aliased.insert {txn : UInt64} (hkey : keyCell k rec = some (.int rowid.toInt64)) :
    Aliased k (engInsert txn tab rowid rec).2 := by
  refine ⟨fun r v hget => ?_, fun r v hget hprev => ?_⟩
  · unfold engInsert at hget
    rw [getElem?_insert_row] at hget
    split at hget
    · rename_i heq
      cases hget
      rw [getRowhdr_wrapRow, heq]
      exact hkey
    · exact h.row r v hget
  · rcases hget with hget | hget
    · unfold engInsert at hget
      rw [getElem?_insert_row] at hget
      split at hget
      · cases hget
        rw [getRowhdr_wrapRow] at hprev
        exact absurd rfl hprev
      · exact h.link r v (Or.inl hget) hprev
    · exact h.link r v (Or.inr hget) hprev

theorem Aliased.update {txn : UInt64} (hkey : keyCell k rec = some (.int rowid.toInt64)) :
    Aliased k (engUpdate txn tab rowid rec).2 := by
  unfold engUpdate
  cases hold : tab.main[rowid]? with
  | none => exact h
  | some old =>
    dsimp only
    have hvid : ∀ (r : UInt64) (v : Bytes), tab.main[r]? = some v ∨ tab.hist[r]? = some v →
        (getRowhdr v).1.prev ≠ 0 → (getRowhdr v).1.prev ≠ maxRowid tab.hist + 1 := by
      -- a link leads to an entry of the history, the new one is behind them all or is 0
      intro r v hget hprev heq
      obtain ⟨u, hu, -⟩ := h.link r v hget hprev
      by_cases hroom : (maxRowid tab.hist).toNat + 1 < 2 ^ 64
      · rw [heq, (maxRowid_succ_fresh hroom).1] at hu
        cases hu
      · refine hprev (heq.trans (UInt64.toNat_inj.mp ?_))
        have hmax := (maxRowid tab.hist).toNat_lt
        rw [UInt64.toNat_add]
        simp
        omega
    have hlink : ∀ (r : UInt64) (v : Bytes), tab.main[r]? = some v ∨ tab.hist[r]? = some v →
        (getRowhdr v).1.prev ≠ 0 → ∃ u, (tab.hist.insert (maxRowid tab.hist + 1)
          (wrapRow (getRowhdr old).1.xmin txn (getRowhdr old).1.prev (getRowhdr old).2))[
            (getRowhdr v).1.prev]? = some u ∧ keyCell k (getRowhdr u).2 = keyCell k (getRowhdr v).2 := by
      intro r v hget hprev
      rw [getElem?_insert_row, if_neg (hvid r v hget hprev)]
      exact h.link r v hget hprev
    refine ⟨fun r v hget => ?_, fun r v hget hprev => ?_⟩
    · rw [getElem?_insert_row] at hget
      split at hget
      · rename_i heq
        cases hget
        rw [getRowhdr_wrapRow, heq]
        exact hkey
      · exact h.row r v hget
    · rcases hget with hget | hget
      · rw [getElem?_insert_row] at hget
        split at hget
        · cases hget
          rw [getRowhdr_wrapRow]
          refine ⟨_, by rw [getElem?_insert_row, if_pos rfl], ?_⟩
          rw [getRowhdr_wrapRow, hkey]
          exact h.row rowid old hold
        · exact hlink r v (Or.inl hget) hprev
      · rw [getElem?_insert_row] at hget
        split at hget
        · cases hget
          rw [getRowhdr_wrapRow] at hprev ⊢
          exact hlink rowid old (Or.inl hold) hprev
        · exact hlink r v (Or.inr hget) hprev

theorem Aliased.remove {txn : UInt64} :
    Aliased k (engRemove txn tab rowid).2 := by
  unfold engRemove
  cases hold : tab.main[rowid]? with
  | none => exact h
  | some old =>
    dsimp only
    refine ⟨fun r v hget => ?_, fun r v hget hprev => ?_⟩
    · rw [getElem?_insert_row] at hget
      split at hget
      · rename_i heq
        cases hget
        rw [getRowhdr_wrapRow, heq]
        exact h.row rowid old hold
      · exact h.row r v hget
    · rcases hget with hget | hget
      · rw [getElem?_insert_row] at hget
        split at hget
        · cases hget
          rw [getRowhdr_wrapRow] at hprev ⊢
          exact h.link rowid old (Or.inl hold) hprev
        · exact h.link r v (Or.inl hget) hprev
      · exact h.link r v (Or.inr hget) hprev

/-- A walk along the links stays with one key. -/
theorem Aliased.resolve {vis : UInt64 → UInt64 → Bool} :
    ∀ {fuel : Nat} {r : UInt64} {work rec : Bytes} {rc : Status},
      tab.main[r]? = some work ∨ tab.hist[r]? = some work →
      resolveVisible vis tab.hist fuel work = (rc, some rec) →
      keyCell k rec = keyCell k (getRowhdr work).2 := by
  intro fuel
  induction fuel with
  | zero => exact fun _ hres => by cases hres
  | succ fuel ih =>
    intro r work rec rc hwork hres
    unfold resolveVisible at hres
    dsimp only at hres
    split at hres
    · cases hres
      rfl
    · split at hres
      · cases hres
      · rename_i hprev
        obtain ⟨u, hu, hkey⟩ := h.link r work hwork hprev
        rw [hu] at hres
        rw [ih (Or.inr hu) hres, hkey]

/-- Rows that are read have their row id as their key. -/
theorem Aliased.scan {m : TxnMgr} {t : Txn} {asof : UInt64} {e : UInt64 × Bytes}
    (he : e ∈ (engScan m t tab asof).2) : keyCell k e.2 = some (.int e.1.toInt64) := by
  have gen : ∀ rows : List (UInt64 × Bytes), (∀ e ∈ rows, tab.main[e.1]? = some e.2) →
      ∀ e ∈ (scanRows (scanVisible m t asof) tab.hist rows).2,
        keyCell k e.2 = some (.int e.1.toInt64) := by
    intro rows
    induction rows with
    | nil => exact fun _ e he => absurd he not_mem_nil
    | cons row rows ih =>
      intro hrows e he
      rw [scanRows] at he
      split at he
      · rename_i found hfound
        rcases mem_append.mp he with hin | hin
        · obtain ⟨rec, hrec, rfl⟩ := mem_map.mp hin
          rw [Option.mem_toList] at hrec
          rw [hrec] at hfound
          have hrow := hrows row mem_cons_self
          rw [h.resolve (Or.inl hrow) hfound]
          exact h.row row.1 row.2 hrow
        · exact ih (forall_mem_cons.mp hrows).2 e hin
      · exact absurd he not_mem_nil
  exact gen _ (fun _ h => Std.ExtTreeMap.mem_toList_iff_getElem?_eq_some.mp h) e he

theorem Aliased.seek {m : TxnMgr} {t : Txn} (hseek : (engSeekRowid m t tab rowid).2 = some rec) :
    keyCell k rec = some (.int rowid.toInt64) := by
  unfold engSeekRowid at hseek
  cases hget : tab.main[rowid]? with
  | none =>
    rw [hget] at hseek
    cases hseek
  | some v =>
    rw [hget] at hseek
    have hres : resolveVisible (txnVisible m t) tab.hist (tab.hist.size + 1) v =
        ((resolveVisible (txnVisible m t) tab.hist (tab.hist.size + 1) v).1, some rec) :=
      Prod.ext rfl hseek
    rw [h.resolve (Or.inl hget) hres]
    exact h.row rowid v hget

end

/-- Row ids of a scan are row ids of the tree, in their order. -/
theorem scanRows_sublist {vis : UInt64 → UInt64 → Bool} {hist : RowMap} :
    ∀ rows : List (UInt64 × Bytes),
      ((scanRows vis hist rows).2.map Prod.fst).Sublist (rows.map Prod.fst) := by
  intro rows
  induction rows with
  | nil => exact .slnil
  | cons row rows ih =>
    rw [scanRows]
    split
    · rename_i found _
      dsimp only
      rw [map_append, map_cons]
      cases found with
      | none => exact ih.cons _
      | some rec => exact ih.cons_cons _
    · exact nil_sublist _

theorem scan_rowids_pairwise (m : TxnMgr) (t : Txn) (tab : Table) (asof : UInt64) :
    ((engScan m t tab asof).2.map Prod.fst).Pairwise (· < ·) := by
  have hkeys : (tab.main.toList.map Prod.fst).Pairwise (· < ·) :=
    pairwise_map.mpr (toList_pairwise_lt tab.main)
  exact hkeys.sublist (scanRows_sublist _)

end Engine

/-! ## The key of a finished row -/

section Key

variable {env : SqlEnv} {t : TableDef} {k : Nat}

theorem pkIntCol_col (h : pkIntCol t = some k) :
    ∃ col : Column, t.cols[k]? = some col ∧ col.type.id.isKeyType = true := by
  unfold pkIntCol at h
  split at h
  · split at h
    · rename_i i _ hkey
      cases h
      cases hcol : t.cols[k]? with
      | none => simp [hcol] at hkey
      | some col => exact ⟨col, rfl, by simpa [hcol] using hkey⟩
    · cases h
  · cases h

/-- The key column is not generated. -/
def KeyGiven (t : TableDef) (k : Nat) : Prop := ∀ col : Column, t.cols[k]? = some col → col.generator = none

/-- A key that was given is stored as the integer it converts to. -/
theorem finalizeRow_key (hk : pkIntCol t = some k) (hgiven : KeyGiven t k) {full : Row}
    (hlen : row.length = t.cols.length) (hnull : cellAt row k ≠ .null)
    (h : finalizeRow env t row = .ok full) : cellAt full k = .int (cellAt row k).asInt := by
  obtain ⟨col, hcol, htype⟩ := pkIntCol_col hk
  obtain ⟨hlen', hcols, -⟩ := finalizeRow_ok hlen h
  obtain ⟨v, hv, hcoerce, -⟩ := hcols k col hcol
  unfold columnInput at hv
  rw [hgiven col hcol] at hv
  dsimp only at hv
  rw [cellAt_midRow hlen', if_neg (Nat.lt_irrefl k)] at hv
  rw [Except.ok.inj hv] at hnull ⊢
  exact coerce_integer htype hnull hcoerce

theorem keyCell_encode (hfits : ∀ v ∈ row, v.Fits) (hlen : row.length ≤ 64) {i : Int64}
    (h : cellAt row k = .int i) : keyCell k (recordEncode row) = some (.int i) := by
  unfold keyCell
  rw [recordDecode_encode hfits (by omega), take_of_length_le (by rw [length_map]; omega)]
  unfold cellAt at h ⊢
  dsimp only
  rw [getElem?_map]
  cases hcell : row[k]? with
  | none => simp [hcell] at h
  | some v =>
    rw [hcell] at h
    have hv : v = .int i := h
    rw [hv]
    rfl

theorem cellAt_of_keyCell {n : Nat} {v : Value} (hk : k < n) (h : keyCell k rec = some v) :
    ∃ row, padRow n rec = some row ∧ cellAt row k = v := by
  unfold keyCell at h
  split at h
  · rename_i vals m hdec
    have hrow : padRow n rec = some ((List.range n).map fun i => vals.getD i .null) := by
      rw [padRow, hdec]
    refine ⟨_, hrow, ?_⟩
    rw [← Option.some.inj h]
    unfold cellAt
    rw [getElem?_map, getElem?_range hk]
    simp [List.getD]
  · cases h

/-- The period of a system-versioned table does not use the key column. -/
structure KeyTable (t : TableDef) (k : Nat) : Prop where
  key : pkIntCol t = some k
  given : KeyGiven t k
  start : t.rowStartCol ≠ some k
  stop : t.rowEndCol ≠ some k
  width : t.cols.length ≤ 64

theorem KeyTable.lt (h : KeyTable t k) : k < t.cols.length := by
  obtain ⟨col, hcol, -⟩ := pkIntCol_col h.key
  exact (List.getElem?_eq_some_iff.mp hcol).1

theorem cellAt_set_ne {i j : Nat} {v : Value} (h : i ≠ j) :
    cellAt (row.set i v) j = cellAt row j := by
  unfold cellAt
  rw [getElem?_set_ne h]

theorem cellAt_stampPeriod (hk : KeyTable t k) (txn : UInt64) (row : Row) :
    cellAt (stampPeriod t txn row) k = cellAt row k := by
  have hstart := hk.start
  have hstop := hk.stop
  unfold stampPeriod
  split
  · cases hs : t.rowStartCol with
    | none =>
      cases he : t.rowEndCol with
      | none => rfl
      | some ce => exact cellAt_set_ne fun heq => hstop (by rw [he, heq])
    | some cs =>
      have hcs : cs ≠ k := fun heq => hstart (by rw [hs, heq])
      cases he : t.rowEndCol with
      | none => exact cellAt_set_ne hcs
      | some ce =>
        exact (cellAt_set_ne fun heq => hstop (by rw [he, heq])).trans (cellAt_set_ne hcs)
  · rfl

/-- The key of a new row, given or assigned, converts to its row id. -/
theorem insertInput_key {c : StmtCtx} {p : InsertPlan} (hk : KeyTable p.t k) (w : Work) (src : Row) :
    cellAt (insertInput c p w src).2 k ≠ .null ∧
      (cellAt (insertInput c p w src).2 k).asInt = (insertInput c p w src).1.toInt64 := by
  have hlen : (placeValues (defaultRow c.env p.t) p.target src).length = p.t.cols.length := by
    rw [length_placeValues, defaultRow, length_map]
  unfold insertInput
  dsimp only
  rw [cellAt_stampPeriod hk, hk.key]
  unfold assignRowid
  dsimp only
  split
  · rename_i hnull
    exact ⟨hnull, by simp⟩
  · rw [cellAt_set _ _ _ _ (by rw [hlen]; exact hk.lt), if_pos rfl]
    exact ⟨by simp, rfl⟩

end Key

/-! ## Statements -/

/-- Assignments that leave the key as it is. -/
def KeepsKey (k : Nat) (sets : List (Nat × BoundStmtExpr)) : Prop :=
  ∀ s ∈ sets, s.1 = k → ∀ db row, s.2.eval db row = cellAt row k

section Sets

variable {k : Nat} {db : Tables}

/-- A cell that is set to what is there. -/
theorem cellAt_set_kept {i : Nat} {v : Value} (h : i = k → v = cellAt row k) :
    cellAt (row.set i v) k = cellAt row k := by
  by_cases hi : i = k
  · rw [h hi, hi]
    by_cases hk : k < row.length
    · rw [cellAt_set _ _ _ _ hk, if_pos rfl]
    · rw [set_eq_of_length_le (by omega)]
  · exact cellAt_set_ne hi

theorem cellAt_upsertSets : ∀ {sets : List (Nat × BoundStmtExpr)} {row : Row}, KeepsKey k sets →
    cellAt (upsertSets db row sets) k = cellAt row k := by
  intro sets
  induction sets with
  | nil => exact fun _ => rfl
  | cons s sets ih =>
    intro row hkeeps
    refine (ih (forall_mem_cons.mp hkeeps).2).trans ?_
    exact cellAt_set_kept fun hs => hkeeps s mem_cons_self hs db row

theorem cellAt_updateSets {sets : List (Nat × BoundStmtExpr)} (hkeeps : KeepsKey k sets) :
    cellAt (updateSets db row sets) k = cellAt row k := by
  have gen : ∀ (sets : List (Nat × BoundStmtExpr)) (full : Row), KeepsKey k sets →
      cellAt full k = cellAt row k →
      cellAt (sets.foldl (fun full s => full.set s.1 (s.2.eval db row)) full) k = cellAt row k := by
    intro sets
    induction sets with
    | nil => exact fun _ _ hfull => hfull
    | cons s sets ih =>
      intro full hkeeps hfull
      refine ih _ (forall_mem_cons.mp hkeeps).2 ?_
      refine (cellAt_set_kept fun hs => ?_).trans hfull
      rw [hkeeps s mem_cons_self hs, hfull]
  exact gen sets row hkeeps rfl

end Sets

/-- The statement does not change keys of table `j`. -/
def StmtKeepsKey (c : StmtCtx) (db : Tables) (j k : Nat) : RowStmt → Prop
  | .insert a => ∀ p sets cond, planInsert c db a = .ok p → p.i = j →
      p.upsert = some (.doUpdate sets cond) → KeepsKey k sets
  | .update a => ∀ p, planChange c db "UPDATE".toUTF8.toList a.table a.sets a.cond a.returning = .ok p →
      p.i = j → KeepsKey k p.sets
  | _ => True

/-- Table `j` is not partitioned, and no other table keeps its rows there. -/
structure OwnRows (db : Tables) (j : Nat) : Prop where
  plain : (db.defn j).isHashPartitioned = false
  own : ∀ j', j ∈ db.parts j' (db.defn j') → j' = j

section Statement

variable {c : StmtCtx} {db : Tables} {j k : Nat}

/-- A row that is stored in table `j` carries its row id as its key. -/
theorem Origin.key {st : RowStmt} {w : Work} {call : Call} (h : Origin c db st w call)
    (hs : SameDefns db w.db) (hkey : KeyTable (db.defn j) k) (hown : OwnRows db j)
    (hkeeps : StmtKeepsKey c db j k st) (hdb : Aliased k (db.data j)) (hw : Aliased k (w.db.data j))
    (htable : call.table = j) (hkind : call.kind ≠ .remove) :
    call.row.length ≤ 64 ∧ cellAt call.row k = .int call.rowid.toInt64 := by
  have hlt := hkey.lt
  have hwidth := hkey.width
  -- an INSERT into the table: what it stores is the finished row
  have insertCase : ∀ {a : Insert} {p : InsertPlan} {row full : Row} {rowid : UInt64} {target : Nat},
      planInsert c db a = .ok p → Placed c p w row full target → row.length = p.t.cols.length →
      target = j → (p.i = j → p.t = db.defn j →
        cellAt row k ≠ .null ∧ (cellAt row k).asInt = rowid.toInt64) →
      (full.take (w.db.defn target).cols.length).length ≤ 64 ∧
        cellAt (full.take (w.db.defn target).cols.length) k = .int rowid.toInt64 := by
    intro a p row full rowid target hplan hplaced hlen htarget hcell
    obtain ⟨-, ht, -⟩ := planInsert_ok hplan
    have hmem : target ∈ db.parts p.i (db.defn p.i) := by
      rw [← ht, ← hs.parts]
      exact storeTarget_mem hplaced.target
    have hi : p.i = j := hown.own p.i (htarget ▸ hmem)
    have ht' : p.t = db.defn j := by rw [ht, hi]
    obtain ⟨hnull, hint⟩ := hcell hi ht'
    have hfull := (finalizeRow_ok hlen hplaced.finish).1
    have hcut : full.take (w.db.defn target).cols.length = full := by
      rw [hs.defn, htarget]
      exact take_of_length_le (by rw [hfull, hlen, ht'])
    rw [hcut]
    refine ⟨by rw [hfull, hlen, ht']; exact hwidth, ?_⟩
    rw [finalizeRow_key (ht' ▸ hkey.key) (ht' ▸ hkey.given) hlen hnull hplaced.finish, hint]
  cases h with
  | insert src hplan _ hplaced | replace src hplan _ hplaced =>
    exact insertCase hplan hplaced (length_insertInput _ _ _) htable
      fun _ ht => insertInput_key (ht ▸ hkey) w src
  | @upsert a p w full target ex sets cond src hplan hupsert hfound hplaced =>
    refine insertCase hplan hplaced ((length_upsertSets _ _ _).trans (length_conflictRow _ _)) htable
      fun hi ht => ?_
    -- the row that was found has the key already
    rw [cellAt_upsertSets (hkeeps p sets cond hplan hi hupsert)]
    have hex : keyCell k ex = some (.int (insertInput c p w src).1.toInt64) := by
      unfold insertConflict at hfound
      rw [ht, hkey.key, hi] at hfound
      exact hw.seek hfound
    obtain ⟨row, hrow, hcell⟩ := cellAt_of_keyCell (n := p.t.cols.length) (by rw [ht]; exact hlt) hex
    have hconf : conflictRow p ex = row := by
      unfold conflictRow
      rw [hrow]
      rfl
    rw [hconf, hcell]
    exact ⟨by simp, rfl⟩
  | @update a p w r full hchanged hstays =>
    obtain ⟨-, ht, -⟩ := planChange_ok hchanged.plan
    obtain ⟨⟨rows, hrows, hr⟩, -⟩ := hchanged.picked
    obtain ⟨hsrc, rec, hscan, hpad⟩ := matRid_mem hrows hr
    have hsrcj : r.src = j := htable
    have hi : p.i = j := hown.own p.i (by rw [← ht, ← hsrcj]; exact hsrc)
    have ht' : p.t = db.defn j := by rw [ht, hi]
    rw [hsrcj] at hscan
    obtain ⟨row, hrow, hcell⟩ :=
      cellAt_of_keyCell (n := p.t.cols.length) (by rw [ht']; exact hlt) (hdb.scan hscan)
    rw [hpad] at hrow
    cases hrow
    have hlen : (updateSets w.db r.row p.sets).length = p.t.cols.length := by
      rw [length_updateSets, length_padRow hpad]
    have hset : cellAt (updateSets w.db r.row p.sets) k = .int r.rowid.toInt64 := by
      rw [cellAt_updateSets (hkeeps p hchanged.plan hi), hcell]
    refine ⟨by rw [(finalizeRow_ok hlen hchanged.finish).1, hlen, ht']; exact hwidth, ?_⟩
    rw [finalizeRow_key (ht' ▸ hkey.key) (ht' ▸ hkey.given) hlen (by rw [hset]; simp) hchanged.finish,
      hset]
    rfl
  | moveOut | delete | truncate => exact absurd rfl hkind
  | @moveIn a p w w' r full target hchanged hpart htarget hmoves hleft =>
    -- only rows of partitioned tables move
    obtain ⟨-, ht, -⟩ := planChange_ok hchanged.plan
    have hmem : target ∈ w.db.parts p.i p.t := partitionPickChild_mem hpart htarget
    have hparts : w.db.parts p.i p.t = db.parts p.i p.t := by
      rw [← hs.parts, hleft, Work.call_parts]
    rw [hparts, ht, show target = j from htable] at hmem
    have hi := hown.own p.i hmem
    rw [ht, hi, hown.plain] at hpart
    cases hpart

end Statement

/-- The conditions under which a statement keeps key and row id of table `j` together. -/
structure KeyStepOk (env : SqlEnv) (db : Tables) (j k : Nat) (s : TxnStmt) : Prop where
  keeps : StmtKeepsKey (s.ctx env) db j k s.st
  fits : ∀ call ∈ (s.exec env db).work.stored, ∀ v ∈ call.row, v.Fits

/-- **One statement keeps keys and row ids together.** -/
theorem TxnStmt.keeps_aliased {env : SqlEnv} {db : Tables} {j k : Nat} (s : TxnStmt)
    (hkey : KeyTable (db.defn j) k) (hown : OwnRows db j) (hok : KeyStepOk env db j k s)
    (h : Aliased k (db.data j)) :
    Aliased k ((s.exec env db).work.db.data j) ∧ SameDefns db (s.exec env db).work.db := by
  have hrun := (s.st.exec_runs (s.ctx env) db).keepsDefns.logs
  refine hrun.invariant (I := fun w => Aliased k (w.db.data j) ∧ SameDefns db w.db) ?_ ?_
    ⟨h, SameDefns.refl db⟩
  · intro w w' hdb _ hw
    rw [hdb]
    exact hw
  · rintro w call ⟨⟨horigin, hs⟩, hlog⟩ ⟨hw, -⟩
    refine ⟨?_, Work.call_length.trans hs.length, fun i => (Work.call_defn i).trans (hs.defn i),
      fun i t => (Work.call_parts i t).trans (hs.parts i t)⟩
    rw [Work.call_db, Tables.data_setData]
    by_cases hj : call.table = j ∧ call.table < w.db.length
    · rw [if_pos hj]
      rw [← hj.1] at hw
      by_cases hrc : (call.exec (s.ctx env).txn.id w.db).1 = .ok
      · -- what is stored has the key
        have hstored : call.kind ≠ .remove →
            keyCell k (recordEncode call.row) = some (.int call.rowid.toInt64) := by
          intro hkind
          obtain ⟨hlen, hcell⟩ := horigin.key hs hkey hown hok.keeps h (hj.1 ▸ hw) hj.1 hkind
          exact keyCell_encode (hok.fits call (mem_of_begins_snoc (hlog hrc))) hlen hcell
        unfold Call.exec
        cases hkind : call.kind with
        | insert => exact hw.insert (hstored (by rw [hkind]; simp))
        | update => exact hw.update (hstored (by rw [hkind]; simp))
        | remove => exact hw.remove
      · -- a call that fails changes nothing
        unfold Call.exec at hrc ⊢
        cases hkind : call.kind with
        | insert =>
          rw [hkind] at hrc
          exact absurd rfl hrc
        | update =>
          rw [hkind] at hrc
          dsimp only at hrc ⊢
          unfold engUpdate at hrc ⊢
          cases hget : (w.db.data call.table).main[call.rowid]? with
          | none => exact hw
          | some old =>
            rw [hget] at hrc
            exact absurd rfl hrc
        | remove => exact hw.remove
    · rw [if_neg hj]
      exact hw

/-! ## Sequences of statements -/

/-- The tables after a sequence of statements. -/
def runStmts (env : SqlEnv) : Tables → List TxnStmt → Tables
  | db, [] => db
  | db, s :: ss => runStmts env (s.exec env db).work.db ss

/-- Each statement meets its conditions when it is executed. -/
def KeyStepsOk (env : SqlEnv) (j k : Nat) : Tables → List TxnStmt → Prop
  | _, [] => True
  | db, s :: ss => KeyStepOk env db j k s ∧ KeyStepsOk env j k (s.exec env db).work.db ss

theorem runStmts_aliased {env : SqlEnv} {j k : Nat} : ∀ {ss : List TxnStmt} {db : Tables},
    KeyTable (db.defn j) k → OwnRows db j → KeyStepsOk env j k db ss → Aliased k (db.data j) →
    Aliased k ((runStmts env db ss).data j) ∧ SameDefns db (runStmts env db ss) := by
  intro ss
  induction ss with
  | nil => exact fun _ _ _ h => ⟨h, SameDefns.refl _⟩
  | cons s ss ih =>
    intro db hkey hown hok h
    obtain ⟨h1, hs⟩ := s.keeps_aliased hkey hown hok.1 h
    obtain ⟨h2, hs2⟩ := ih (by rw [hs.defn]; exact hkey)
      ⟨by rw [hs.defn]; exact hown.plain, fun j' hj' => hown.own j' (by rwa [hs.defn, hs.parts] at hj')⟩
      hok.2 h1
    exact ⟨h2, hs2.length.trans hs.length, fun i => (hs2.defn i).trans (hs.defn i),
      fun i t => (hs2.parts i t).trans (hs.parts i t)⟩

/-- A key that is assigned is the key of a row that is read only if the row ids have run out. -/
theorem assigned_key_new {k : Nat} {tab : Table} (h : Aliased k tab) (m : TxnMgr) (t : Txn)
    (asof : UInt64) :
    (∀ row : Row, cellAt row k = .null → ∀ e ∈ (engScan m t tab asof).2,
        keyCell k e.2 ≠ some (.int (assignRowid tab (some k) row).1.toInt64)) ↔
      ((maxRowid tab.main).toNat + 1 < 2 ^ 64 ∨ ∀ e ∈ (engScan m t tab asof).2, e.1 ≠ 0) := by
  have hnext : ∀ row : Row, cellAt row k = .null → (assignRowid tab (some k) row).1 = engNextRowid tab := by
    intro row hnull
    unfold assignRowid
    dsimp only
    rw [if_neg (fun hne => hne hnull)]
  have hsame : ∀ e ∈ (engScan m t tab asof).2, ∀ row : Row, cellAt row k = .null →
      (keyCell k e.2 = some (.int (assignRowid tab (some k) row).1.toInt64) ↔
        e.1 = engNextRowid tab) := by
    intro e he row hnull
    rw [h.scan he, hnext row hnull]
    constructor
    · intro heq
      have hint : e.1.toInt64 = (engNextRowid tab).toInt64 := by simpa using heq
      rw [← e.1.toUInt64_toInt64, hint, UInt64.toUInt64_toInt64]
    · intro heq
      rw [heq]
  have hmain : ∀ e ∈ (engScan m t tab asof).2, ∃ v, tab.main[e.1]? = some v := by
    intro e he
    have hmem := (scanRows_sublist tab.main.toList).subset (mem_map_of_mem (f := Prod.fst) he)
    obtain ⟨e', he', heq⟩ := mem_map.mp hmem
    exact ⟨e'.2, heq ▸ Std.ExtTreeMap.mem_toList_iff_getElem?_eq_some.mp he'⟩
  by_cases hroom : (maxRowid tab.main).toNat + 1 < 2 ^ 64
  · refine iff_of_true (fun row hnull e he heq => ?_) (Or.inl hroom)
    obtain ⟨v, hv⟩ := hmain e he
    rw [(hsame e he row hnull).mp heq, engNextRowid, (maxRowid_succ_fresh hroom).1] at hv
    cases hv
  · -- the next row id is 0
    have hzero : engNextRowid tab = 0 := by
      have hmax := (maxRowid tab.main).toNat_lt
      refine UInt64.toNat_inj.mp ?_
      rw [engNextRowid, UInt64.toNat_add]
      simp
      omega
    constructor
    · exact fun hne => Or.inr fun e he h0 =>
        hne [] rfl e he ((hsame e he [] rfl).mpr (h0.trans hzero.symm))
    · rintro (hlt | hne) row hnull e he heq
      · exact hroom hlt
      · exact hne e he (((hsame e he row hnull).mp heq).trans hzero)

/-- **The key stands for the row id.** After any sequence of statements that do not change keys, on
a table that was empty: every row that anyone reads has its row id as its key, no two rows have the
same key, and a key that is assigned now is not the key of a row that is read, unless the largest
row id is the last one and row 0 is read. -/
theorem key_aliases_rowid (env : SqlEnv) (db : Tables) (j k : Nat) (hkey : KeyTable (db.defn j) k)
    (hown : OwnRows db j) (hfresh : db.data j = .empty) (ss : List TxnStmt)
    (hok : KeyStepsOk env j k db ss) (m : TxnMgr) (t : Txn) (asof : UInt64) :
    let tab := (runStmts env db ss).data j
    let rows := (engScan m t tab asof).2
    (∀ e ∈ rows, keyCell k e.2 = some (.int e.1.toInt64)) ∧
      (rows.map fun e => keyCell k e.2).Nodup ∧
      ((∀ row : Row, cellAt row k = .null → ∀ e ∈ rows,
          keyCell k e.2 ≠ some (.int (assignRowid tab (some k) row).1.toInt64)) ↔
        ((maxRowid tab.main).toNat + 1 < 2 ^ 64 ∨ ∀ e ∈ rows, e.1 ≠ 0)) := by
  have halias : Aliased k ((runStmts env db ss).data j) :=
    (runStmts_aliased hkey hown hok (by rw [hfresh]; exact aliased_empty k)).1
  refine ⟨fun e he => halias.scan he, ?_, assigned_key_new halias m t asof⟩
  have hrows : (engScan m t ((runStmts env db ss).data j) asof).2.map (fun e => keyCell k e.2) =
      ((engScan m t ((runStmts env db ss).data j) asof).2.map Prod.fst).map
        fun r => some (.int r.toInt64) := by
    rw [map_map]
    exact map_congr_left fun e he => halias.scan he
  rw [hrows]
  refine List.Nodup.map (fun r r' heq => ?_) ((scan_rowids_pairwise m t _ asof).imp fun hlt heq => ?_)
  · have hint : r.toInt64 = r'.toInt64 := by simpa using heq
    rw [← r.toUInt64_toInt64, hint, UInt64.toUInt64_toInt64]
  · rw [heq] at hlt
    exact UInt64.lt_irrefl _ hlt

/-- `CREATE TABLE t (a INTEGER PRIMARY KEY, b INTEGER)`. -/
def keyedTable : Tables :=
  [⟨{ TableDef.new [116] with cols := [{ intColumn [97] with pk := true }, intColumn [98]] }, .empty⟩]

/-- `UPDATE t SET col = v`. -/
def updateAll (col : Bytes) (v : Value) : Update := ⟨[116], [(col, ⟨[], fun _ _ => v⟩)], none, none⟩

/-- Two rows are inserted, the second with a key that is assigned, and one column is updated. -/
def keyedStmts : List TxnStmt :=
  [firstStmt (.insert (insertValues [116] [.int 7, .int 1])),
    firstStmt (.insert (insertValues [116] [.null, .int 2])), firstStmt (.update (updateAll [98] (.int 3)))]

theorem keyedStmts_ok : KeyStepsOk columnEnv 0 0 keyedTable keyedStmts := by
  have hfits : ∀ calls : List Call, calls.all (fun call => call.row.all fun v =>
      decide (v = .null) || decide (v = .int v.asInt)) = true → ∀ call ∈ calls, ∀ v ∈ call.row, v.Fits := by
    intro calls hall call hcall v hv
    have hcell := all_eq_true.mp (all_eq_true.mp hall call hcall) v hv
    rcases Bool.or_eq_true_iff.mp hcell with h | h <;> rw [of_decide_eq_true h] <;> exact trivial
  have hinsert : ∀ (db : Tables) (vals : Row),
      StmtKeepsKey ((firstStmt (.insert (insertValues [116] vals))).ctx columnEnv) db 0 0
        (.insert (insertValues [116] vals)) := by
    intro db vals p sets cond hplan _ hupsert
    obtain ⟨-, -, -, -, hbind⟩ := planInsert_ok hplan
    rw [hupsert] at hbind
    cases hbind
  refine ⟨⟨hinsert _ _, hfits _ (by decide +kernel)⟩, ⟨hinsert _ _, hfits _ (by decide +kernel)⟩,
    ⟨fun p hplan hi s hs hs0 => ?_, hfits _ (by decide +kernel)⟩, trivial⟩
  -- the assignment is to column 1
  obtain ⟨-, ht, -, hsets⟩ := planChange_ok hplan
  obtain ⟨x, hx, hbind⟩ := mem_mapM_ok hsets s hs
  have hcol := bindSet_ok hbind
  rw [mem_singleton.mp hx, ht, hi, hs0] at hcol
  exact absurd hcol (by decide +kernel)

theorem key_aliases_rowid_keyed :
    let tab := (runStmts columnEnv keyedTable keyedStmts).data 0
    (engScan firstMgr firstTxn tab 0).2.map (fun e => (e.1, keyCell 0 e.2)) =
        [(7, some (.int 7)), (8, some (.int 8))] ∧
      ((engScan firstMgr firstTxn tab 0).2.map fun e => keyCell 0 e.2).Nodup := by
  refine ⟨by decide +kernel, ?_⟩
  refine (key_aliases_rowid columnEnv keyedTable 0 0 ⟨by decide, ?_, by decide, by decide, by decide⟩
    ⟨by decide, ?_⟩ rfl keyedStmts keyedStmts_ok firstMgr firstTxn 0).2.1
  · intro col hcol
    cases hcol
    rfl
  · intro j' hj'
    cases j' with
    | zero => rfl
    | succ n => exact (mem_singleton.mp hj').symm

/-- **An update of the key leaves the row where it is.** The rows with keys 1 and 2 both have key 1
afterwards, and the second is still stored under row id 2. -/
theorem update_key_duplicates :
    let db := runStmts columnEnv keyedTable [firstStmt (.insert (insertValues [116] [.int 1, .int 1])),
      firstStmt (.insert (insertValues [116] [.int 2, .int 2]))]
    let o := (firstStmt (.update (updateAll [97] (.int 1)))).exec columnEnv db
    o.rc = .ok ∧ (engScan firstMgr firstTxn (o.work.db.data 0) 0).2.map (fun e => (e.1, keyCell 0 e.2)) =
      [(1, some (.int 1)), (2, some (.int 1))] := by
  decide +kernel

end Tdb.Exec
