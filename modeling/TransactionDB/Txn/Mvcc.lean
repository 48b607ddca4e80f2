import TransactionDB.Txn.Txn

/-!
# TransactionDB — snapshot visibility

`src/txn/tdb_mvcc.c` and the registry of `src/txn/tdb_txn.c` it consults. A version of a row
carries the id that created it and the id that deleted it, 0 if none did. Whether a
transaction sees it depends on the registry of the manager and on the transaction's snapshot.
-/

namespace Tdb

open List

/-- `tdb_txnmgr_state`. -/
def txnmgrState (m : TxnMgr) (xid : UInt64) : XState :=
  if xid = 0 then .aborted
  else if xid ≤ m.base then .committed
  else
    match m.recs.find? (fun r => r.1 = xid) with
    | some r => r.2
    | none => .aborted

/-- `tdb_snapshot_in_active`. -/
def Snapshot.inActive (s : Snapshot) (xid : UInt64) : Bool := s.active.any (fun a => a = xid)

/-- `xid_visible`. -/
def xidVisible (state : UInt64 → XState) (s : Snapshot) (xid : UInt64) : Bool :=
  if xid = s.self then true
  else if state xid ≠ .committed then false
  else if xid ≥ s.xmax then false
  else !s.inActive xid

/-- `tdb_mvcc_visible`. -/
def mvccVisible (state : UInt64 → XState) (s : Snapshot) (xmin xmax : UInt64) : Bool :=
  if !xidVisible state s xmin then false
  else if xmax = 0 then true
  else if xmax = s.self then false
  else !xidVisible state s xmax

/-- `tdb_txn_visible`. -/
def txnVisible (m : TxnMgr) (t : Txn) (xmin xmax : UInt64) : Bool :=
  mvccVisible (txnmgrState m) t.snap xmin xmax

/-- `tdb_txn_visible_asof`. -/
def txnVisibleAsof (m : TxnMgr) (xmin xmax asof : UInt64) : Bool :=
  if txnmgrState m xmin ≠ .committed then false
  else if xmin > asof then false
  else if xmax = 0 then true
  else !decide (txnmgrState m xmax = .committed ∧ xmax ≤ asof)

/-- `tdb_txn_refresh_snapshot`. -/
def txnRefreshSnapshot (m : TxnMgr) (t : Txn) : Txn := { t with snap := takeSnapshot m t.id }

section

variable {state : UInt64 → XState} {s : Snapshot} {xid xmin xmax : UInt64}

theorem xidVisible_self : xidVisible state s s.self = true := by
  simp [xidVisible]

theorem xidVisible_iff (h : xid ≠ s.self) :
    xidVisible state s xid = true ↔ state xid = .committed ∧ xid < s.xmax ∧ xid ∉ s.active := by
  have hact : s.inActive xid = false ↔ xid ∉ s.active := by
    simp only [Snapshot.inActive, any_eq_false, decide_eq_true_eq]
    exact ⟨fun hall hmem => hall xid hmem rfl, fun hnot a ha heq => hnot (heq ▸ ha)⟩
  simp [xidVisible, h, hact]

/-- What a snapshot shows, given the ids `before` it takes for committed. -/
theorem mvccVisible_iff (before : UInt64 → Prop)
    (hbefore : ∀ x, before x ↔ state x = .committed ∧ x < s.xmax ∧ x ∉ s.active) :
    mvccVisible state s xmin xmax = true ↔
      (xmin = s.self ∨ before xmin) ∧ (xmax = 0 ∨ (xmax ≠ s.self ∧ ¬ before xmax)) := by
  have hmin : xidVisible state s xmin = true ↔ xmin = s.self ∨ before xmin := by
    by_cases h : xmin = s.self
    · simp [h, xidVisible_self]
    · rw [xidVisible_iff h, hbefore]
      simp [h]
  have hmax : xmax ≠ s.self → (xidVisible state s xmax = true ↔ before xmax) := by
    intro h
    rw [xidVisible_iff h, hbefore]
  unfold mvccVisible
  by_cases h1 : xidVisible state s xmin = true
  · rw [h1]
    simp only [Bool.not_true, Bool.false_eq_true, if_false, hmin.mp h1, true_and]
    by_cases h0 : xmax = 0
    · simp [h0]
    · by_cases hself : xmax = s.self
      · rw [if_neg h0, if_pos hself]
        simp [hself, show s.self ≠ 0 from hself ▸ h0]
      · rw [if_neg h0, if_neg hself, Bool.not_eq_true', ← hmax hself]
        simp [h0, hself]
  · rw [Bool.not_eq_true] at h1
    rw [h1]
    simp only [Bool.not_false, if_true, Bool.false_eq_true, false_iff]
    rintro ⟨hv, -⟩
    rw [hmin.mpr hv] at h1
    cases h1

end

/-! ## The registry -/

theorem find_setState (recs : List (UInt64 × XState)) (id : UInt64) (st : XState) (x : UInt64) :
    (setState recs id st).find? (fun r => r.1 = x)
      = if x = id then some (id, st) else recs.find? (fun r => r.1 = x) := by
  induction recs with
  | nil =>
    by_cases h : x = id
    · simp [setState, h]
    · simp [setState, h, Ne.symm h]
  | cons r recs ih =>
    unfold setState
    by_cases hr : r.1 = id
    · rw [if_pos hr]
      by_cases h : x = id
      · simp [h]
      · have hx : ¬ id = x := fun heq => h heq.symm
        simp [h, hx, hr]
    · rw [if_neg hr, find?_cons, find?_cons, ih]
      by_cases hx : r.1 = x
      · simp [hx, show x ≠ id from fun h => hr (hx.trans h)]
      · simp [hx]

/-- The registry after a change of one id of this session. -/
theorem txnmgrState_setState {m m' : TxnMgr} {id : UInt64} {st : XState} (hbase : m'.base = m.base)
    (hrecs : m'.recs = setState m.recs id st) (hid : m.base < id) (x : UInt64) :
    txnmgrState m' x = if x = id then st else txnmgrState m x := by
  unfold txnmgrState
  rw [hbase, hrecs, find_setState]
  by_cases h : x = id
  · subst h
    have h0 : x ≠ 0 := by
      rintro rfl
      exact absurd (UInt64.lt_iff_toNat_lt.mp hid) (by simp)
    rw [if_neg h0, if_neg (UInt64.not_le.mpr hid), if_pos rfl, if_pos rfl]
  · rw [if_neg h, if_neg h]

/-! ## The active array -/

section

variable {active : List UInt64} {id : UInt64} (hid : id ∈ active)

include hid

/-- Swap-removal keeps the other entries. -/
theorem activeRemove_perm :
    (activeRemove active id).Perm (active.erase id) := by
  obtain ⟨xs, ys, rfl, hxs⟩ := eq_append_cons_of_mem hid
  have hidx : (xs ++ id :: ys).findIdx? (fun a => a = id) = some xs.length := by
    have hnone : xs.findIdx? (fun a => a = id) = none := by
      rw [findIdx?_eq_none_iff]
      intro a ha
      simpa using fun heq : a = id => hxs (heq ▸ ha)
    rw [findIdx?_append, hnone, findIdx?_cons]
    simp
  have herase : (xs ++ id :: ys).erase id = xs ++ ys := by
    rw [erase_append_right _ hxs, erase_cons_head]
  rw [activeRemove, hidx, herase]
  rcases eq_nil_or_concat ys with rfl | ⟨zs, z, rfl⟩
  · simp
  · -- the last entry moves to the gap
    have hset : (xs ++ id :: (zs ++ [z])).set xs.length z = xs ++ z :: zs ++ [z] := by
      simp
    have hlast : (xs ++ id :: (zs ++ [z])).getLastD 0 = z := by
      rw [← cons_append, ← append_assoc, getLastD_concat]
    simp only [concat_eq_append, hlast, hset]
    rw [show (xs ++ id :: (zs ++ [z])).length - 1 = (xs ++ z :: zs).length by simp,
      take_left]
    have hswap : ([z] ++ zs).Perm (zs ++ [z]) := perm_append_comm
    exact hswap.append_left xs

theorem mem_activeRemove (hnd : active.Nodup) (x : UInt64) :
    x ∈ activeRemove active id ↔ x ∈ active ∧ x ≠ id := by
  rw [(activeRemove_perm hid).mem_iff, hnd.mem_erase_iff]
  exact and_comm

theorem nodup_activeRemove (hnd : active.Nodup) : (activeRemove active id).Nodup :=
  (activeRemove_perm hid).nodup_iff.mpr (hnd.erase id)

end

end Tdb
