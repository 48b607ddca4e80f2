import TransactionDB.Engine.Row
import TransactionDB.Lib.Versions

/-!
# TransactionDB — a table is a database of version chains

`TableRep` reads a table as chains of versions: the stored row, and behind it what the links
into the history lead to. The operations of the engine do to the chains what `Versions.Change`
says, and a walk over a chain finds what `Versions.lookup` finds. The links lead to smaller
version ids, so a walk ends.
-/

namespace Tdb

open Versions List

/-! ## Row maps -/

section RowMap

variable {m : RowMap} {k : UInt64} {v : Bytes}

theorem getElem?_insert_row (m : RowMap) (k : UInt64) (v : Bytes) (k' : UInt64) :
    (m.insert k v)[k']? = if k' = k then some v else m[k']? := by
  rw [Std.ExtTreeMap.getElem?_insert]
  by_cases h : k' = k
  · simp [h]
  · simp [h, Ne.symm h]

/-- The rows of a map come in the order of their ids, each once. -/
theorem toList_pairwise_lt (m : RowMap) : m.toList.Pairwise (fun e e' => e.1 < e'.1) := by
  refine m.ordered_keys_toList.imp fun {e e'} h => ?_
  exact compareOfLessAndEq_eq_lt.mp h

theorem le_maxRowid (h : m[k]? = some v) : k ≤ maxRowid m := by
  have hmem := Std.ExtTreeMap.mem_toList_iff_getElem?_eq_some.mpr h
  obtain ⟨init, e, hsplit⟩ :=
    (eq_nil_or_concat m.toList).resolve_left (ne_nil_of_mem hmem)
  have hpair := toList_pairwise_lt m
  rw [concat_eq_append] at hsplit
  rw [maxRowid, hsplit, getLast?_concat]
  rw [hsplit] at hmem hpair
  rcases mem_append.mp hmem with hin | hin
  · exact UInt64.le_of_lt ((pairwise_append.mp hpair).2.2 _ hin e (mem_singleton_self e))
  · rw [← mem_singleton.mp hin]
    exact UInt64.le_refl _

theorem maxRowid_key (m : RowMap) : maxRowid m = 0 ∨ ∃ v, m[maxRowid m]? = some v := by
  unfold maxRowid
  cases hlast : m.toList.getLast? with
  | none => exact Or.inl rfl
  | some e =>
    refine Or.inr ⟨e.2, Std.ExtTreeMap.mem_toList_iff_getElem?_eq_some.mp ?_⟩
    exact mem_of_getLast? hlast

/-- The next id is new, unless the ids have run out. -/
theorem maxRowid_succ_fresh (hroom : (maxRowid m).toNat + 1 < 2 ^ 64) :
    m[maxRowid m + 1]? = none ∧ maxRowid m + 1 ≠ 0 ∧ ∀ k v, m[k]? = some v → k < maxRowid m + 1 := by
  have hsucc : (maxRowid m + 1).toNat = (maxRowid m).toNat + 1 := by
    rw [UInt64.toNat_add]
    simp
    omega
  have hlt : ∀ k v, m[k]? = some v → k < maxRowid m + 1 := by
    intro k v hget
    have hle := UInt64.le_iff_toNat_le.mp (le_maxRowid hget)
    rw [UInt64.lt_iff_toNat_lt]
    omega
  refine ⟨?_, fun hz => ?_, hlt⟩
  · cases hget : m[maxRowid m + 1]? with
    | none => rfl
    | some v => exact absurd (hlt _ v hget) (UInt64.lt_irrefl _)
  · rw [hz] at hsucc
    simp at hsucc

end RowMap

/-! ## The representation -/

/-- A stored version. -/
def version (xmin xmax : UInt64) (rec : Bytes) : Version UInt64 Bytes :=
  ⟨xmin, if xmax = 0 then none else some xmax, rec⟩

/-- The versions that version id `vid` leads to. -/
inductive Links (hist : RowMap) : UInt64 → List (Version UInt64 Bytes) → Prop where
  | nil : Links hist 0 []
  | cons (vid xmin xmax prev : UInt64) (rec : Bytes) (vs : List (Version UInt64 Bytes))
      (h0 : vid ≠ 0) (hget : hist[vid]? = some (wrapRow xmin xmax prev rec)) (hlt : prev < vid)
      (hrest : Links hist prev vs) : Links hist vid (version xmin xmax rec :: vs)

/-- A history that only grew. -/
def Grows (hist hist' : RowMap) : Prop :=
  ∀ (k : UInt64) (v : Bytes), hist[k]? = some v → hist'[k]? = some v

/-- The table keeps these chains. -/
structure TableRep (tab : Table) (cs : Chains UInt64 UInt64 Bytes) : Prop where
  absent : ∀ r, tab.main[r]? = none → cs r = []
  row : ∀ r val, tab.main[r]? = some val → ∃ xmin xmax prev rec vs,
    val = wrapRow xmin xmax prev rec ∧ Links tab.hist prev vs ∧ cs r = version xmin xmax rec :: vs

section Rep

variable {hist hist' : RowMap} {tab tab' : Table} {cs : Chains UInt64 UInt64 Bytes} {txn r : UInt64}
  {rec : Bytes} {vid : UInt64} {vs : List (Version UInt64 Bytes)}

/-- Old versions stay where they are. -/
theorem Links.mono (h : Links hist vid vs) (hsub : Grows hist hist') : Links hist' vid vs := by
  induction h with
  | nil => exact .nil
  | cons vid xmin xmax prev rec vs h0 hget hlt _ ih =>
    exact .cons vid xmin xmax prev rec vs h0 (hsub _ _ hget) hlt ih

/-- The version ids on the way are different entries of the history. -/
theorem Links.vids (h : Links hist vid vs) : ∃ vids : List UInt64, vids.length = vs.length ∧
    vids.Pairwise (fun a b => b < a) ∧ ∀ k ∈ vids, k ≤ vid ∧ ∃ v, hist[k]? = some v := by
  induction h with
  | nil => exact ⟨[], rfl, .nil, by simp⟩
  | cons vid xmin xmax prev rec vs h0 hget hlt _ ih =>
    obtain ⟨vids, hlen, hpair, hmem⟩ := ih
    refine ⟨vid :: vids, by simp [hlen], .cons (fun k hk => ?_) hpair, fun k hk => ?_⟩
    · exact UInt64.lt_of_le_of_lt (hmem k hk).1 hlt
    · rcases mem_cons.mp hk with rfl | hk
      · exact ⟨UInt64.le_refl _, _, hget⟩
      · exact ⟨UInt64.le_of_lt (UInt64.lt_of_le_of_lt (hmem k hk).1 hlt), (hmem k hk).2⟩

theorem Links.length_le (h : Links hist vid vs) : vs.length ≤ hist.size := by
  obtain ⟨vids, hlen, hpair, hmem⟩ := h.vids
  have hnd : vids.Nodup := hpair.imp (fun hlt heq => by subst heq; exact UInt64.lt_irrefl _ hlt)
  have hsub : vids ⊆ hist.keys := by
    intro k hk
    obtain ⟨v, hv⟩ := (hmem k hk).2
    exact Std.ExtTreeMap.mem_keys.mpr (Std.ExtTreeMap.mem_iff_isSome_getElem?.mpr (by rw [hv]; rfl))
  rw [← hlen, ← Std.ExtTreeMap.length_keys]
  exact (hnd.subperm hsub).length_le

theorem tableRep_empty : TableRep .empty (fun _ => []) := by
  refine ⟨fun _ _ => rfl, fun r val h => ?_⟩
  simp [Table.empty] at h

/-- One row stored anew, over a history that only grew. -/
theorem TableRep.put (h : TableRep tab cs) {xmin xmax prev : UInt64}
    (hsub : Grows tab.hist hist') (hlinks : Links hist' prev vs) :
    TableRep ⟨tab.main.insert r (wrapRow xmin xmax prev rec), hist'⟩
      (Function.update cs r (version xmin xmax rec :: vs)) := by
  refine ⟨fun r' hnone => ?_, fun r' val hget => ?_⟩
  · simp only [getElem?_insert_row] at hnone
    split at hnone
    · cases hnone
    · rw [Function.update_of_ne ‹_›]
      exact h.absent r' hnone
  · simp only [getElem?_insert_row] at hget
    split at hget
    · rename_i heq
      cases hget
      exact ⟨xmin, xmax, prev, rec, vs, rfl, hlinks, by rw [heq, Function.update_self]⟩
    · rw [Function.update_of_ne ‹_›]
      obtain ⟨a, b, p, rec', vs', hval, hl, hcs⟩ := h.row r' val hget
      exact ⟨a, b, p, rec', vs', hval, hl.mono hsub, hcs⟩

theorem version_of_id (htxn : txn ≠ 0) (xmin xmax : UInt64) (rec : Bytes) :
    version xmin txn rec = { version xmin xmax rec with deleted := some txn } := by
  simp [version, htxn]

/-- `eng_insert` starts a new chain. -/
theorem TableRep.insert (h : TableRep tab cs) (txn r : UInt64) (rec : Bytes) :
    TableRep (engInsert txn tab r rec).2 ((Change.insert r rec).store txn cs) :=
  h.put (fun _ _ hv => hv) .nil

/-- `eng_update` puts a version in front, where there is a row. -/
theorem TableRep.update (h : TableRep tab cs) (htxn : txn ≠ 0)
    (hroom : (maxRowid tab.hist).toNat + 1 < 2 ^ 64) (r : UInt64) (rec : Bytes) :
    (engUpdate txn tab r rec).1 = (if cs r = [] then .notfound else .ok) ∧
      TableRep (engUpdate txn tab r rec).2 ((Change.update r rec).store txn cs) := by
  unfold engUpdate
  cases hget : tab.main[r]? with
  | none =>
    have hcs := h.absent r hget
    exact ⟨by simp [hcs], by rw [Change.store_update_nil hcs]; exact h⟩
  | some old =>
    obtain ⟨xmin, xmax, prev, orec, vs, rfl, hlinks, hcs⟩ := h.row r old hget
    obtain ⟨hfresh, h0, hlt⟩ := maxRowid_succ_fresh hroom
    set vid := maxRowid tab.hist + 1 with hvid
    have hsub : Grows tab.hist (tab.hist.insert vid (wrapRow xmin txn prev orec)) := by
      intro k v hv
      rw [getElem?_insert_row, if_neg]
      · exact hv
      · rintro rfl
        rw [hfresh] at hv
        cases hv
    have hprev : prev < vid := by
      cases hlinks with
      | nil => exact UInt64.pos_iff_ne_zero.mpr h0
      | cons _ _ _ _ _ _ _ hget' => exact hlt _ _ hget'
    refine ⟨by simp [hcs], ?_⟩
    simp only [getRowhdr_wrapRow]
    rw [Change.store_update_cons hcs, ← version_of_id htxn]
    refine h.put hsub (.cons vid xmin txn prev orec vs h0 ?_ hprev (hlinks.mono hsub))
    rw [getElem?_insert_row, if_pos rfl]

/-- `eng_remove` marks the newest version. -/
theorem TableRep.remove (h : TableRep tab cs) (htxn : txn ≠ 0) (r : UInt64) :
    (engRemove txn tab r).1 = (if cs r = [] then .notfound else .ok) ∧
      TableRep (engRemove txn tab r).2 ((Change.remove r).store txn cs) := by
  unfold engRemove
  cases hget : tab.main[r]? with
  | none =>
    have hcs := h.absent r hget
    exact ⟨by simp [hcs], by rw [Change.store_remove_nil hcs]; exact h⟩
  | some old =>
    obtain ⟨xmin, xmax, prev, orec, vs, rfl, hlinks, hcs⟩ := h.row r old hget
    refine ⟨by simp [hcs], ?_⟩
    simp only [getRowhdr_wrapRow]
    rw [Change.store_remove_cons hcs, ← version_of_id htxn]
    exact h.put (fun _ _ hv => hv) hlinks

/-! ## Reading -/

/-- The test `vis` accepts the versions that a reader with the transactions `S` sees. -/
def VisBy (vis : UInt64 → UInt64 → Bool) (S : UInt64 → Bool) : Prop :=
  ∀ xmin xmax rec, vis xmin xmax = (version xmin xmax rec).visible S

variable {vis : UInt64 → UInt64 → Bool} {S : UInt64 → Bool}

section

variable {prev : UInt64} (hlinks : Links hist prev vs) {fuel : Nat} (hfuel : vs.length < fuel)

include hlinks hfuel

/-- **The walk over a chain** ends and finds the first visible version: by induction on the
versions behind. -/
theorem Links.resolve (hvis : VisBy vis S) (xmin xmax : UInt64) (rec : Bytes) :
    resolveVisible vis hist fuel (wrapRow xmin xmax prev rec)
      = (.ok, lookup S (version xmin xmax rec :: vs)) := by
  induction hlinks generalizing xmin xmax rec fuel with
  | nil =>
    obtain ⟨fuel, rfl⟩ : ∃ n, fuel = n + 1 := ⟨fuel - 1, by omega⟩
    rw [resolveVisible, getRowhdr_wrapRow, lookup_cons]
    simp only [hvis xmin xmax rec, lookup_nil, if_true]
    split <;> rfl
  | cons vid xmin' xmax' prev' rec' vs h0 hget hlt _ ih =>
    rw [length_cons] at hfuel
    obtain ⟨fuel, rfl⟩ : ∃ n, fuel = n + 1 := ⟨fuel - 1, by omega⟩
    rw [resolveVisible, getRowhdr_wrapRow, lookup_cons]
    simp only [hvis xmin xmax rec, if_neg h0, hget]
    split
    · rfl
    · exact ih (by omega) xmin' xmax' rec'

/-- Whatever the test, the walk ends. -/
theorem Links.ends (vis : UInt64 → UInt64 → Bool) (xmin xmax : UInt64) (rec : Bytes) :
    (resolveVisible vis hist fuel (wrapRow xmin xmax prev rec)).1 = .ok := by
  induction hlinks generalizing xmin xmax rec fuel with
  | nil =>
    obtain ⟨fuel, rfl⟩ : ∃ n, fuel = n + 1 := ⟨fuel - 1, by omega⟩
    rw [resolveVisible, getRowhdr_wrapRow]
    simp only [if_true]
    split <;> rfl
  | cons vid xmin' xmax' prev' rec' vs h0 hget hlt _ ih =>
    rw [length_cons] at hfuel
    obtain ⟨fuel, rfl⟩ : ∃ n, fuel = n + 1 := ⟨fuel - 1, by omega⟩
    rw [resolveVisible, getRowhdr_wrapRow]
    simp only [if_neg h0, hget]
    split
    · rfl
    · exact ih (by omega) xmin' xmax' rec'

end

section

variable (h : TableRep tab cs) {r : UInt64} {val : Bytes} (hget : tab.main[r]? = some val)

include h hget

/-- The walk from any stored row ends. -/
theorem TableRep.ends (vis : UInt64 → UInt64 → Bool) :
    (resolveVisible vis tab.hist (tab.hist.size + 1) val).1 = .ok := by
  obtain ⟨xmin, xmax, prev, rec, vs, rfl, hlinks, -⟩ := h.row r val hget
  exact hlinks.ends (Nat.lt_succ_of_le hlinks.length_le) vis xmin xmax rec

/-- What is found for a stored row. -/
theorem TableRep.resolve (hvis : VisBy vis S) :
    resolveVisible vis tab.hist (tab.hist.size + 1) val = (.ok, lookup S (cs r)) := by
  obtain ⟨xmin, xmax, prev, rec, vs, rfl, hlinks, hcs⟩ := h.row r val hget
  rw [hcs]
  exact hlinks.resolve (Nat.lt_succ_of_le hlinks.length_le) hvis xmin xmax rec

end

theorem scanRows_eq {f : UInt64 → Option Bytes} : ∀ rows : List (UInt64 × Bytes),
    (∀ e ∈ rows, resolveVisible vis hist (hist.size + 1) e.2 = (.ok, f e.1)) →
    scanRows vis hist rows = (.ok, rows.filterMap (fun e => (f e.1).map (fun rec => (e.1, rec)))) := by
  intro rows
  induction rows with
  | nil => exact fun _ => rfl
  | cons e rows ih =>
    intro hall
    obtain ⟨rid, v⟩ := e
    rw [scanRows, hall _ mem_cons_self, ih (forall_mem_cons.mp hall).2]
    simp only [filterMap_cons]
    cases f rid <;> rfl

/-- The rows that a reader sees, as a map. -/
theorem TableRep.rows (h : TableRep tab cs) (S : UInt64 → Bool) (r : UInt64) :
    (tab.main.filterMap (fun r _ => lookup S (cs r)))[r]? = lookup S (cs r) := by
  rw [Std.ExtTreeMap.getElem?_filterMap']
  cases hget : tab.main[r]? with
  | none => simp [h.absent r hget]
  | some val => rfl

section

variable (h : TableRep tab cs) (hvis : VisBy vis S)

include h hvis

/-- **A full scan returns the rows of the database that the reader sees**, in the order of their
ids. -/
theorem TableRep.scan {db : RowMap} (hdb : ∀ r, db[r]? = lookup S (cs r)) :
    scanRows vis tab.hist tab.main.toList = (.ok, db.toList) := by
  have hrows : ∀ e ∈ tab.main.toList,
      resolveVisible vis tab.hist (tab.hist.size + 1) e.2 = (.ok, lookup S (cs e.1)) := by
    intro e he
    exact h.resolve (Std.ExtTreeMap.mem_toList_iff_getElem?_eq_some.mp he) hvis
  rw [scanRows_eq (f := fun r => lookup S (cs r)) _ hrows]
  have hmap : db = tab.main.filterMap (fun r _ => lookup S (cs r)) := by
    apply Std.ExtTreeMap.ext_getElem?
    intro r
    rw [hdb, h.rows]
  rw [hmap, Std.ExtTreeMap.toList_filterMap]

/-- The rows of a full scan. -/
theorem TableRep.mem_scan (r : UInt64) (rec : Bytes) :
    (r, rec) ∈ (scanRows vis tab.hist tab.main.toList).2 ↔ lookup S (cs r) = some rec := by
  rw [h.scan hvis (h.rows S), ← h.rows S r]
  exact Std.ExtTreeMap.mem_toList_iff_getElem?_eq_some

/-- Two full scans return the same if their readers see the same of every row. -/
theorem TableRep.scan_eq_iff {cs' : Chains UInt64 UInt64 Bytes} {vis' : UInt64 → UInt64 → Bool}
    {S' : UInt64 → Bool} (h' : TableRep tab' cs') (hvis' : VisBy vis' S') :
    scanRows vis tab.hist tab.main.toList = scanRows vis' tab'.hist tab'.main.toList ↔
      ∀ r, lookup S (cs r) = lookup S' (cs' r) := by
  constructor
  · intro heq r
    apply Option.ext
    intro rec
    rw [← h.mem_scan hvis r rec, heq, h'.mem_scan hvis' r rec]
  · intro hsame
    rw [h.scan hvis (h.rows S)]
    exact (h'.scan hvis' fun r => (h.rows S r).trans (hsame r)).symm

end

end Rep

/-! ## Who sees what -/

/-- The ids that transaction `t` sees. -/
def txnSees (m : TxnMgr) (t : Txn) : UInt64 → Bool := xidVisible (txnmgrState m) t.snap

/-- The ids committed up to a version. -/
def asofSees (m : TxnMgr) (asof : UInt64) (x : UInt64) : Bool :=
  decide (txnmgrState m x = .committed ∧ x ≤ asof)

/-- The ids a scan goes by. -/
def scanSees (m : TxnMgr) (t : Txn) (asof : UInt64) : UInt64 → Bool :=
  if asof ≠ 0 then asofSees m asof else txnSees m t

theorem visBy_txn (m : TxnMgr) (t : Txn) : VisBy (txnVisible m t) (txnSees m t) := by
  intro xmin xmax rec
  unfold txnVisible mvccVisible Version.visible version txnSees
  by_cases h1 : xidVisible (txnmgrState m) t.snap xmin = true
  · simp only [h1, Bool.not_true, Bool.false_eq_true, if_false, Bool.true_and]
    by_cases h0 : xmax = 0
    · simp [h0]
    · by_cases hself : xmax = t.snap.self
      · subst hself
        simp [h0, xidVisible_self]
      · simp [h0, hself]
  · simp [h1]

theorem visBy_asof (m : TxnMgr) (asof : UInt64) :
    VisBy (fun xmin xmax => txnVisibleAsof m xmin xmax asof) (asofSees m asof) := by
  intro xmin xmax rec
  unfold txnVisibleAsof Version.visible version asofSees
  by_cases h1 : txnmgrState m xmin = .committed
  · by_cases h2 : xmin ≤ asof
    · by_cases h0 : xmax = 0
      · simp [h1, h2, h0, UInt64.not_lt.mpr h2]
      · simp [h1, h2, h0, UInt64.not_lt.mpr h2]
    · simp [h1, h2, UInt64.not_le.mp h2]
  · simp [h1]

theorem visBy_scan (m : TxnMgr) (t : Txn) (asof : UInt64) :
    VisBy (scanVisible m t asof) (scanSees m t asof) := by
  intro xmin xmax rec
  unfold scanVisible scanSees
  by_cases h : asof ≠ 0
  · rw [if_pos h, if_pos h]
    exact visBy_asof m asof xmin xmax rec
  · rw [if_neg h, if_neg h]
    exact visBy_txn m t xmin xmax rec

section Read

variable {m : TxnMgr} {t : Txn} {tab : Table} {cs : Chains UInt64 UInt64 Bytes}

/-- `eng_seek_rowid` looks up the chain. -/
theorem TableRep.seek (h : TableRep tab cs) (m : TxnMgr) (t : Txn) (r : UInt64) :
    engSeekRowid m t tab r = (.ok, lookup (txnSees m t) (cs r)) := by
  unfold engSeekRowid
  cases hget : tab.main[r]? with
  | none => simp [h.absent r hget]
  | some val => exact h.resolve hget (visBy_txn m t)

end Read

/-! ## Stored versions -/

/-- A record that is stored in the table, as a row or in the history. -/
def Table.HasVersion (tab : Table) (rec : Bytes) : Prop :=
  ∃ (k : UInt64) (v : Bytes), (tab.main[k]? = some v ∨ tab.hist[k]? = some v) ∧ (getRowhdr v).2 = rec

section Stored

variable {tab : Table} {rec : Bytes}

theorem not_hasVersion_empty : ¬ Table.empty.HasVersion rec := by
  rintro ⟨k, v, hget | hget, -⟩ <;> simp [Table.empty] at hget

theorem hasVersion_insert {txn rowid : UInt64} {new : Bytes}
    (h : (engInsert txn tab rowid new).2.HasVersion rec) : tab.HasVersion rec ∨ rec = new := by
  obtain ⟨k, v, hget | hget, hrec⟩ := h
  · unfold engInsert at hget
    rw [getElem?_insert_row] at hget
    split at hget
    · cases hget
      rw [getRowhdr_wrapRow] at hrec
      exact Or.inr hrec.symm
    · exact Or.inl ⟨k, v, Or.inl hget, hrec⟩
  · exact Or.inl ⟨k, v, Or.inr hget, hrec⟩

theorem hasVersion_update {txn rowid : UInt64} {new : Bytes}
    (h : (engUpdate txn tab rowid new).2.HasVersion rec) :
    tab.HasVersion rec ∨ ((engUpdate txn tab rowid new).1 = .ok ∧ rec = new) := by
  unfold engUpdate at h ⊢
  cases hold : tab.main[rowid]? with
  | none =>
    rw [hold] at h
    exact Or.inl h
  | some old =>
    rw [hold] at h
    obtain ⟨k, v, hget | hget, hrec⟩ := h
    · dsimp only at hget
      rw [getElem?_insert_row] at hget
      split at hget
      · cases hget
        rw [getRowhdr_wrapRow] at hrec
        exact Or.inr ⟨rfl, hrec.symm⟩
      · exact Or.inl ⟨k, v, Or.inl hget, hrec⟩
    · dsimp only at hget
      rw [getElem?_insert_row] at hget
      split at hget
      · -- the version that went to the history
        cases hget
        rw [getRowhdr_wrapRow] at hrec
        exact Or.inl ⟨rowid, old, Or.inl hold, hrec⟩
      · exact Or.inl ⟨k, v, Or.inr hget, hrec⟩

theorem hasVersion_remove {txn rowid : UInt64} (h : (engRemove txn tab rowid).2.HasVersion rec) :
    tab.HasVersion rec := by
  unfold engRemove at h
  cases hold : tab.main[rowid]? with
  | none =>
    rw [hold] at h
    exact h
  | some old =>
    rw [hold] at h
    obtain ⟨k, v, hget | hget, hrec⟩ := h
    · dsimp only at hget
      rw [getElem?_insert_row] at hget
      split at hget
      · cases hget
        rw [getRowhdr_wrapRow] at hrec
        exact ⟨rowid, old, Or.inl hold, hrec⟩
      · exact ⟨k, v, Or.inl hget, hrec⟩
    · exact ⟨k, v, Or.inr hget, hrec⟩

/-- A walk finds a stored version. -/
theorem hasVersion_of_resolve {vis : UInt64 → UInt64 → Bool} : ∀ {fuel : Nat} {work : Bytes} {rc : Status},
    tab.HasVersion (getRowhdr work).2 → resolveVisible vis tab.hist fuel work = (rc, some rec) →
    tab.HasVersion rec := by
  intro fuel
  induction fuel with
  | zero => exact fun _ h => by cases h
  | succ fuel ih =>
    intro work rc hwork h
    unfold resolveVisible at h
    dsimp only at h
    split at h
    · cases h
      exact hwork
    · split at h
      · cases h
      · split at h
        · rename_i v hget
          exact ih ⟨_, v, Or.inr hget, rfl⟩ h
        · cases h

theorem hasVersion_of_scanRows {vis : UInt64 → UInt64 → Bool} : ∀ {rows : List (UInt64 × Bytes)},
    (∀ e ∈ rows, tab.main[e.1]? = some e.2) → ∀ e ∈ (scanRows vis tab.hist rows).2, tab.HasVersion e.2 := by
  intro rows
  induction rows with
  | nil => exact fun _ e he => absurd he not_mem_nil
  | cons row rows ih =>
    intro hrows e he
    have hhead : tab.HasVersion (getRowhdr row.2).2 :=
      ⟨row.1, row.2, Or.inl (hrows row mem_cons_self), rfl⟩
    rw [scanRows] at he
    split at he
    · rename_i found hfound
      rcases mem_append.mp he with hin | hin
      · obtain ⟨rec, hrec, rfl⟩ := mem_map.mp hin
        rw [Option.mem_toList] at hrec
        rw [hrec] at hfound
        exact hasVersion_of_resolve hhead hfound
      · exact ih (forall_mem_cons.mp hrows).2 e hin
    · exact absurd he not_mem_nil

/-- What a scan returns is stored. -/
theorem hasVersion_of_scan {m : TxnMgr} {t : Txn} {asof : UInt64} {e : UInt64 × Bytes}
    (he : e ∈ (engScan m t tab asof).2) : tab.HasVersion e.2 :=
  hasVersion_of_scanRows (fun _ h => Std.ExtTreeMap.mem_toList_iff_getElem?_eq_some.mp h) e he

end Stored

end Tdb
