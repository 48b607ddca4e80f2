import TransactionDB.Sql.Ddl

/-!
# TransactionDB — the order of the keys of an index

A key of an index is the record of the indexed values with the rowid behind them. `build_keyinfo` of
`src/storage/engine_row.c` gives each column the collation of the table's column and the direction of the
index, and the rowid the order of the integers. The order is meant to be lexicographic: the first column
that differs decides. `tdb_record_compare` computes it for an index of at most 15 columns; CREATE INDEX
accepts more, and then every comparison reads past the arrays.
-/

namespace Tdb

open List

variable {ki : List KeyCol} {vb va : List Value}

/-! ## The keys -/

/-- The columns of an index, as the table and the index define them. -/
def Index.keyCols (t : TableDef) (ix : Index) : List KeyCol :=
  ix.cols.map fun c => ⟨((t.cols[c.1]?).map Column.coll).getD .binary, c.2⟩

/-- `build_keyinfo`, into the arrays of 34 elements that its callers give it. -/
def buildKeyinfo (t : TableDef) (ix : Index) : Option (List KeyCol) :=
  if ix.cols.length < 34 then some (ix.keyCols t ++ [⟨.binary, false⟩]) else none

/-- The comparison of two keys in the tree of an index. -/
def compareIndexKeys (t : TableDef) (ix : Index) (a b : Bytes) : Option Ordering :=
  (buildKeyinfo t ix).bind fun ki => recordCompareChecked ki a b

/-- The value that stands in a key for the rowid. -/
def rowidValue (rowid : UInt64) : Value := .int rowid.toInt64

/-- The record holds a value for each column of the index, and a rowid. -/
structure IsKey (ix : Index) (rec : Bytes) (vals : List Value) (rowid : UInt64) : Prop where
  length : vals.length = ix.cols.length
  decode : recordDecode rec (ix.cols.length + 1) =
    .ok (vals ++ [rowidValue rowid], ix.cols.length + 1)

/-- `build_index_key`, with its arrays of 32 values and of 33. -/
def buildIndexKey (ix : Index) (rec : Bytes) (rowid : UInt64) : Option Bytes :=
  match recordDecode rec 32 with
  | .error _ => none
  | .ok (vals, nc) =>
    if 32 < nc ∨ 32 < ix.cols.length then none
    else some (recordEncode (ix.cols.map (fun c => vals.getD c.1 .null) ++ [rowidValue rowid]))

theorem isKey_encode {ix : Index} {vals : List Value} {rowid : UInt64}
    (hlen : vals.length = ix.cols.length) (hsmall : vals.length < 2 ^ 31)
    (hvals : ∀ v ∈ vals, v.Fits ∧ v.stored = v) :
    IsKey ix (recordEncode (vals ++ [rowidValue rowid])) vals rowid := by
  have hall : ∀ v ∈ vals ++ [rowidValue rowid], v.Fits ∧ v.stored = v := by
    intro v hv
    rcases mem_append.mp hv with hv | hv
    · exact hvals v hv
    · rw [mem_singleton.mp hv]
      exact ⟨trivial, rfl⟩
  have hstored : (vals ++ [rowidValue rowid]).map Value.stored = vals ++ [rowidValue rowid] :=
    (map_congr_left fun v hv => (hall v hv).2).trans (map_id' _)
  refine ⟨hlen, ?_⟩
  rw [recordDecode_encode (fun v hv => (hall v hv).1) (by simp; omega), hstored,
    take_of_length_le (by simp [hlen]), length_append, hlen]
  rfl

/-- What the engine builds is a key. -/
theorem buildIndexKey_isKey {ix : Index} {rec key : Bytes} {rowid : UInt64}
    (h : buildIndexKey ix rec rowid = some key) :
    ∃ vals nc, recordDecode rec 32 = .ok (vals, nc) ∧
      IsKey ix key (ix.cols.map fun c => vals.getD c.1 .null) rowid := by
  unfold buildIndexKey at h
  split at h
  · cases h
  · next vals nc hdec =>
    split at h
    · cases h
    · next hroom =>
      cases h
      refine ⟨vals, nc, hdec, isKey_encode (by simp) (by simp; omega) fun v hv => ?_⟩
      obtain ⟨c, -, rfl⟩ := mem_map.mp hv
      rw [getD_eq_getElem?_getD]
      cases hcol : vals[c.1]? with
      | none => exact ⟨trivial, rfl⟩
      | some x => exact (recordDecode_fits hdec).2 x (mem_of_getElem? hcol)

theorem buildIndexKey_isKey_one : ∃ vals nc, recordDecode (recordEncode [.int 5]) 32 = .ok (vals, nc) ∧
    IsKey ⟨[105], 0, false, .btree, [(0, true)]⟩ (recordEncode [.int 5, rowidValue 7])
      [vals.getD 0 .null] 7 :=
  buildIndexKey_isKey (by decide +kernel)

/-! ## The lexicographic order -/

/-- The first column that differs decides. -/
def lexOrder (ki : List KeyCol) (va vb : List Value) : Ordering :=
  ((List.zipWith (fun kc (p : Value × Value) => kc.compare p.1 p.2) ki (va.zip vb)).find?
    (· ≠ .eq)).getD .eq

@[simp] theorem lexOrder_nil (va vb : List Value) : lexOrder [] va vb = .eq := rfl

theorem lexOrder_cons (kc : KeyCol) (ki : List KeyCol) (x y : Value) (va vb : List Value) :
    lexOrder (kc :: ki) (x :: va) (y :: vb) =
      if kc.compare x y ≠ .eq then kc.compare x y else lexOrder ki va vb := by
  unfold lexOrder
  by_cases h : kc.compare x y = .eq
  · simp [h]
  · simp [h]

/-- Keys are equal only where every column is. -/
theorem lexOrder_eq_iff : ∀ {ki : List KeyCol} {va vb : List Value}, va.length = ki.length →
    vb.length = ki.length → (lexOrder ki va vb = .eq ↔
      ∀ (i : Nat) (kc : KeyCol) (x y : Value), ki[i]? = some kc → va[i]? = some x → vb[i]? = some y →
        kc.compare x y = .eq)
  | [], _, _, _, _ => by simp
  | kc :: ki, x :: va, y :: vb, ha, hb => by
    have ih : lexOrder ki va vb = .eq ↔ _ :=
      lexOrder_eq_iff (by simpa using ha) (by simpa using hb)
    rw [lexOrder_cons]
    constructor
    · intro heq
      have hfirst : kc.compare x y = .eq := by
        by_contra hne
        rw [if_pos hne] at heq
        exact hne heq
      rw [if_neg (not_not.mpr hfirst), ih] at heq
      rintro (_ | i) kc' x' y' hk hx hy
      · cases hk
        cases hx
        cases hy
        exact hfirst
      · exact heq i kc' x' y' hk hx hy
    · intro hall
      have hfirst : kc.compare x y = .eq := hall 0 kc x y rfl rfl rfl
      rw [if_neg (not_not.mpr hfirst), ih]
      exact fun i kc' x' y' hk hx hy => hall (i + 1) kc' x' y' hk hx hy

/-- The loop computes the order of the columns it goes over. -/
theorem compareLoop_eq : ∀ {n i : Nat},
    i + n = ki.length → va.length = ki.length → vb.length = ki.length →
    compareLoop ki va vb n i = some (lexOrder (ki.drop i) (va.drop i) (vb.drop i))
  | 0, i, hn, _, _ => by
    rw [drop_of_length_le (by omega : ki.length ≤ i)]
    rfl
  | n + 1, i, hn, ha, hb => by
    have hki : i < ki.length := by omega
    have hva : i < va.length := by omega
    have hvb : i < vb.length := by omega
    rw [compareLoop, getElem?_eq_getElem hki, getElem?_eq_getElem hva,
      getElem?_eq_getElem hvb, drop_eq_getElem_cons hki, drop_eq_getElem_cons hva,
      drop_eq_getElem_cons hvb, lexOrder_cons, compareLoop_eq (by omega) ha hb]
    simp only
    split <;> rfl

/-! ## The comparison -/

theorem KeyCol.compare_eq_eq (kc : KeyCol) (x y : Value) :
    kc.compare x y = .eq ↔ valueCompare x y kc.coll = .eq := by
  unfold KeyCol.compare
  split
  · cases valueCompare x y kc.coll <;> simp
  · exact Iff.rfl

theorem valueCompare_rowid (r s : UInt64) (coll : Collation) :
    valueCompare (rowidValue r) (rowidValue s) coll = .eq ↔ r = s := by
  have hval : valueCompare (rowidValue r) (rowidValue s) coll =
      Ord.compare r.toInt64.toInt s.toInt64.toInt := rfl
  rw [hval, Int.compare_eq_eq, Int64.toInt_inj]
  constructor
  · intro h
    have := congrArg Int64.toUInt64 h
    simpa using this
  · rintro rfl
    rfl

/-- Where the arrays have room, keys are compared in the lexicographic order. -/
theorem recordCompareChecked_of_le {a b : Bytes} (hpos : 0 < ki.length) (hroom : ki.length ≤ 16)
    (hva : va.length = ki.length) (hvb : vb.length = ki.length)
    (ha : recordDecode a ki.length = .ok (va, ki.length))
    (hb : recordDecode b ki.length = .ok (vb, ki.length)) :
    recordCompareChecked ki a b = some (lexOrder ki va vb) := by
  have hloop : compareLoop ki va vb (min ki.length ki.length) 0 = some (lexOrder ki va vb) := by
    rw [Nat.min_self]
    exact compareLoop_eq (by omega) hva hvb
  simp only [recordCompareChecked, if_pos (And.intro hpos hroom), ha, hb, hloop]
  rw [if_neg (by omega), if_neg (by simp)]

/-- The loop goes over the columns that both keys have. -/
theorem compareCols_of_loop {c : Ordering} : ∀ {n i : Nat},
    min va.length vb.length ≤ i + n → compareLoop ki va vb n i = some c →
    compareCols (ki.drop i) (va.drop i) (vb.drop i) = c
  | 0, i, hn, h => by
    cases h
    rcases Nat.le_total va.length vb.length with hle | hle
    · rw [drop_of_length_le (by omega : va.length ≤ i)]
      cases ki.drop i <;> rfl
    · rw [drop_of_length_le (by omega : vb.length ≤ i)]
      cases ki.drop i <;> cases va.drop i <;> rfl
  | n + 1, i, hn, h => by
    rw [compareLoop] at h
    split at h
    · next kc x y hk hx hy =>
      have hcols : compareCols (ki.drop i) (va.drop i) (vb.drop i) = (kc.compare x y).then
          (compareCols (ki.drop (i + 1)) (va.drop (i + 1)) (vb.drop (i + 1))) := by
        rw [ki.drop_eq_getElem?_toList_append, va.drop_eq_getElem?_toList_append,
          vb.drop_eq_getElem?_toList_append, hk, hx, hy]
        rfl
      rw [hcols]
      split at h
      · next hne =>
        cases h
        cases hc : kc.compare x y with
        | lt => rfl
        | eq => exact absurd hc hne
        | gt => rfl
      · next heq =>
        rw [not_not.mp heq, compareCols_of_loop (by omega) h]
        rfl
    · cases h

/-- What the trees compare with is the checked comparison, wherever that is allowed. -/
theorem recordCompare_of_checked {a b : Bytes} {c : Ordering} (hpos : 0 < ki.length)
    (h : recordCompareChecked ki a b = some c) : recordCompare ki a b = c := by
  unfold recordCompareChecked at h
  generalize hmaxa : (if 0 < ki.length ∧ ki.length ≤ 16 then ki.length else 16) = maxa at h
  have hmax : maxa ≤ ki.length := by
    split at hmaxa <;> omega
  simp only at h
  split at h
  · next va ca vb cb ha hb =>
    split at h
    · cases h
    · next r hloop =>
      split at h
      · cases h
      · next hroom =>
        -- every column was decoded, so that decoding more of them changes nothing
        have hva := (recordDecode_fits ha).1
        have hvb := (recordDecode_fits hb).1
        have hfull : ∀ {vals : List Value} {n : Nat}, vals.length = min maxa n → n ≤ vals.length →
            vals.take ki.length = vals := fun hl hle => take_of_length_le (by omega)
        have hcols : compareCols ki va vb = r := compareCols_of_loop (by omega) hloop
        rw [recordCompare, recordDecode_max ha (by omega) ki.length,
          recordDecode_max hb (by omega) ki.length]
        simp only [hfull hva (by omega), hfull hvb (by omega), hcols]
        cases h
        cases r with
        | lt => rfl
        | gt => rfl
        | eq =>
          by_cases heq : ca = cb
          · simp [heq]
          · rcases Nat.lt_or_gt_of_ne heq with hlt | hgt
            · simp [heq, hlt, Nat.compare_eq_lt.mpr hlt]
            · simp [heq, Nat.not_lt_of_gt hgt, Nat.compare_eq_gt.mpr hgt]
  · next hnone =>
    cases h
    unfold recordCompare
    split
    · next va ca vb cb ha hb =>
      obtain ⟨alla, hdeca, -⟩ := recordDecode_ok ha
      obtain ⟨allb, hdecb, -⟩ := recordDecode_ok hb
      exact (hnone _ _ _ _ (hdeca maxa) (hdecb maxa)).elim
    · rfl

theorem recordCompare_of_checked_one :
    recordCompare [⟨.binary, true⟩] (recordEncode [.int 5]) (recordEncode [.int 7]) = .gt :=
  recordCompare_of_checked (by decide) (by decide +kernel)

/-- With more columns than that, an array is read beyond what was set. -/
theorem recordCompareChecked_of_gt {a b : Bytes} {ca cb : Nat} (hroom : 16 < ki.length)
    (hca : 16 < ca) (ha : recordDecode a 16 = .ok (va, ca)) (hva : va.length ≤ 16)
    (hb : recordDecode b 16 = .ok (vb, cb)) :
    recordCompareChecked ki a b = none := by
  simp only [recordCompareChecked, if_neg (by omega : ¬(0 < ki.length ∧ ki.length ≤ 16)), ha, hb]
  split
  · rfl
  · rw [if_pos (Or.inl (by omega))]

theorem IsKey.decodeFront {ix : Index} {rec : Bytes} {vals : List Value} {rowid : UInt64}
    (h : IsKey ix rec vals rowid) (max : Nat) :
    recordDecode rec max = .ok ((vals ++ [rowidValue rowid]).take max, ix.cols.length + 1) :=
  recordDecode_max h.decode (Nat.le_refl _) max

theorem length_keyCols (t : TableDef) (ix : Index) : (ix.keyCols t).length = ix.cols.length := by
  simp [Index.keyCols]

/-- What the order of the keys `a` and `b` of an index should be: lexicographic, and equal only for equal
columns and one rowid. -/
structure OrdersKeys (t : TableDef) (ix : Index) (a b : Bytes) (va vb : List Value) (ra rb : UInt64) :
    Prop where
  lex : compareIndexKeys t ix a b = some (lexOrder (ix.keyCols t ++ [⟨.binary, false⟩])
    (va ++ [rowidValue ra]) (vb ++ [rowidValue rb]))
  equal : compareIndexKeys t ix a b = some .eq → ra = rb ∧
    ∀ (i : Nat) (kc : KeyCol) (x y : Value), (ix.keyCols t)[i]? = some kc → va[i]? = some x →
      vb[i]? = some y → valueCompare x y kc.coll = .eq

/-- Keys are equal only with equal columns and one rowid. -/
theorem lexOrder_keys {ra rb : UInt64} (hva : va.length = ki.length) (hvb : vb.length = ki.length)
    (h : lexOrder (ki ++ [⟨.binary, false⟩]) (va ++ [rowidValue ra]) (vb ++ [rowidValue rb]) = .eq) :
    ra = rb ∧ ∀ (i : Nat) (kc : KeyCol) (x y : Value), ki[i]? = some kc → va[i]? = some x →
      vb[i]? = some y → valueCompare x y kc.coll = .eq := by
  rw [lexOrder_eq_iff (by simp [hva]) (by simp [hvb])] at h
  constructor
  · have hrow := h ki.length ⟨.binary, false⟩ (rowidValue ra) (rowidValue rb) (by simp)
      (by simp [← hva]) (by simp [← hvb])
    exact (valueCompare_rowid ra rb .binary).mp hrow
  · intro i kc x y hk hx hy
    have hi : i < ki.length := (List.getElem?_eq_some_iff.mp hk).1
    refine (kc.compare_eq_eq x y).mp (h i kc x y ?_ ?_ ?_)
    · rwa [getElem?_append_left hi]
    · rwa [getElem?_append_left (by omega)]
    · rwa [getElem?_append_left (by omega)]

/-- Two keys of an index are compared in the lexicographic order of their columns exactly where the index
has at most 15 columns. -/
theorem compareIndexKeys_iff (t : TableDef) (ix : Index) {a b : Bytes} {va vb : List Value}
    {ra rb : UInt64} (ha : IsKey ix a va ra) (hb : IsKey ix b vb rb) :
    OrdersKeys t ix a b va vb ra rb ↔ ix.cols.length ≤ 15 := by
  have hlen : (ix.keyCols t ++ [(⟨.binary, false⟩ : KeyCol)]).length = ix.cols.length + 1 := by
    simp [length_keyCols]
  constructor
  · intro hord
    by_contra hmany
    have hfront : ((va ++ [rowidValue ra]).take 16).length ≤ 16 := length_take_le _ _
    have hnone : compareIndexKeys t ix a b = none := by
      unfold compareIndexKeys buildKeyinfo
      split
      · exact recordCompareChecked_of_gt (by omega) (by omega) (ha.decodeFront 16) hfront
          (hb.decodeFront 16)
      · rfl
    rw [hord.lex] at hnone
    cases hnone
  · intro hfew
    have hva : (va ++ [rowidValue ra]).length = ix.cols.length + 1 := by simp [ha.length]
    have hvb : (vb ++ [rowidValue rb]).length = ix.cols.length + 1 := by simp [hb.length]
    have hlex : compareIndexKeys t ix a b = some (lexOrder (ix.keyCols t ++ [⟨.binary, false⟩])
        (va ++ [rowidValue ra]) (vb ++ [rowidValue rb])) := by
      rw [compareIndexKeys, buildKeyinfo, if_pos (by omega)]
      refine recordCompareChecked_of_le (by omega) (by omega) (by omega) (by omega) ?_ ?_
      · rw [hlen]
        exact ha.decode
      · rw [hlen]
        exact hb.decode
    refine ⟨hlex, fun heq => ?_⟩
    rw [hlex, Option.some_inj] at heq
    exact lexOrder_keys (by rw [ha.length, length_keyCols]) (by rw [hb.length, length_keyCols]) heq

/-- A table of two columns, the first without case. -/
def twoColumns : TableDef :=
  { TableDef.new [116] with
    cols := [{ Column.init [97] (.plain .text) with coll := .nocase }, .init [98] (.plain .integer)] }

/-- Two columns, the second descending: "A" and "a" are equal, so that the greater number is first. -/
theorem compareIndexKeys_descending :
    let ix : Index := ⟨[105], 0, false, .btree, [(0, false), (1, true)]⟩
    let a := recordEncode ([.text [65], .int 7] ++ [rowidValue 1])
    let b := recordEncode ([.text [97], .int 5] ++ [rowidValue 2])
    compareIndexKeys twoColumns ix a b = some .lt := by
  intro ix a b
  have ha : IsKey ix a [.text [65], .int 7] 1 :=
    isKey_encode rfl (by decide) (by simp [Value.Fits, Value.stored])
  have hb : IsKey ix b [.text [97], .int 5] 2 :=
    isKey_encode rfl (by decide) (by simp [Value.Fits, Value.stored])
  have hord := (compareIndexKeys_iff twoColumns ix ha hb).mpr (by decide)
  rw [hord.lex]
  decide +kernel

/-- CREATE INDEX takes a column 16 times; the comparison of two keys of that index reads past its arrays. -/
theorem compareIndexKeys_sixteen :
    let ix : Index := ⟨[105], 0, false, .btree, List.replicate 16 (1, false)⟩
    let a := recordEncode (List.replicate 16 (.int 7) ++ [rowidValue 1])
    let b := recordEncode (List.replicate 16 (.int 7) ++ [rowidValue 2])
    Ddl.indexCols twoColumns (List.replicate 16 ([98], false)) = .ok ix.cols ∧
      IsKey ix a (List.replicate 16 (.int 7)) 1 ∧ IsKey ix b (List.replicate 16 (.int 7)) 2 ∧
      compareIndexKeys twoColumns ix a b = none := by
  intro ix a b
  have hkey : ∀ rowid, IsKey ix (recordEncode (List.replicate 16 (.int 7) ++ [rowidValue rowid]))
      (List.replicate 16 (.int 7)) rowid := fun rowid =>
    isKey_encode rfl (by decide) (by simp [Value.Fits, Value.stored])
  exact ⟨rfl, hkey 1, hkey 2, by decide +kernel⟩

end Tdb
