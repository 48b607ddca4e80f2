import TransactionDB.Storage.CommitComplete
import TransactionDB.Txn.Mvcc

/-!
# TransactionDB — a snapshot shows what was committed before it

`MgrRun` is the history of a transaction manager: transactions begin, commit, roll back and
refresh their snapshots in any order. With the state it records which ids have committed, and
for every live transaction which ids had committed when its snapshot was taken. The registry,
the bound `xmax` and the copied array of active ids together decide exactly that.
-/

namespace Tdb

open List

variable {iso : Isolation}

/-- A live transaction, with the ids that had committed before its current snapshot. -/
structure LiveTxn where
  txn : Txn
  before : UInt64 → Prop

/-- The histories of a manager, with its live transactions and the ids committed so far. The
64-bit counter of ids never runs out. -/
inductive MgrRun (c : Codec) : TxnMgr → List LiveTxn → (UInt64 → Prop) → Prop where
  /-- Ids up to the stored maximum are committed transactions of earlier sessions. -/
  | opened (p : Pager) (hmax : p.hdr.maxTxnid.toNat + 1 < 2 ^ 64) :
      MgrRun c (txnmgrOpen p) [] (fun x => x ≠ 0 ∧ x ≤ p.hdr.maxTxnid)
  | begin (m m' : TxnMgr) (live : List LiveTxn) (com : UInt64 → Prop) (iso : Isolation)
      (writable : Bool) (t : Txn) (hrun : MgrRun c m live com) (hid : m.next.toNat + 1 < 2 ^ 64)
      (hbegin : txnBegin c m iso writable = (.ok, m', some t)) :
      MgrRun c m' (live ++ [⟨t, com⟩]) com
  /-- `tdb_pager_begin` refused. -/
  | refused (m m' : TxnMgr) (live : List LiveTxn) (com : UInt64 → Prop) (iso : Isolation)
      (writable : Bool) (rc : Status) (hrun : MgrRun c m live com)
      (hid : m.next.toNat + 1 < 2 ^ 64) (hbegin : txnBegin c m iso writable = (rc, m', none)) :
      MgrRun c m' live com
  | commit (m m' : TxnMgr) (ls rs : List LiveTxn) (l : LiveTxn) (com : UInt64 → Prop)
      (hrun : MgrRun c m (ls ++ l :: rs) com) (hcommit : txnCommit c m l.txn = (.ok, m')) :
      MgrRun c m' (ls ++ rs) (fun x => com x ∨ x = l.txn.id)
  | commitFails (m m' : TxnMgr) (ls rs : List LiveTxn) (l : LiveTxn) (com : UInt64 → Prop)
      (rc : Status) (hrun : MgrRun c m (ls ++ l :: rs) com)
      (hcommit : txnCommit c m l.txn = (rc, m')) (hrc : rc ≠ .ok) : MgrRun c m' (ls ++ rs) com
  | rollback (m m' : TxnMgr) (ls rs : List LiveTxn) (l : LiveTxn) (com : UInt64 → Prop)
      (rc : Status) (hrun : MgrRun c m (ls ++ l :: rs) com)
      (hroll : txnRollback c m l.txn = (rc, m')) : MgrRun c m' (ls ++ rs) com
  | refresh (m : TxnMgr) (ls rs : List LiveTxn) (l : LiveTxn) (com : UInt64 → Prop)
      (hrun : MgrRun c m (ls ++ l :: rs) com) :
      MgrRun c m (ls ++ ⟨txnRefreshSnapshot m l.txn, com⟩ :: rs) com
  /-- Anything done to the pages and to the savepoints of a transaction. -/
  | work (m : TxnMgr) (ls rs : List LiveTxn) (l : LiveTxn) (com : UInt64 → Prop) (p : Pager)
      (sps : List (Bytes × Nat)) (hrun : MgrRun c m (ls ++ l :: rs) com) :
      MgrRun c { m with pager := p } (ls ++ ⟨{ l.txn with sps := sps }, l.before⟩ :: rs) com

/-! ## The invariant -/

/-- The snapshot of `l` separates the ids committed before it from all others: those still
running when it was taken are in its array, those started later are not below its bound. -/
structure SnapInv (m : TxnMgr) (live : List LiveTxn) (com : UInt64 → Prop) (l : LiveTxn) : Prop where
  self : l.txn.snap.self = l.txn.id
  xmax_le : l.txn.snap.xmax ≤ m.next
  before : ∀ x, l.before x ↔ com x ∧ x < l.txn.snap.xmax ∧ x ∉ l.txn.snap.active
  running : ∀ u ∈ live, l.txn.snap.xmax ≤ u.txn.id ∨ u.txn.id ∈ l.txn.snap.active

structure MgrInv (m : TxnMgr) (live : List LiveTxn) (com : UInt64 → Prop) : Prop where
  base_lt : m.base < m.next
  com_iff : ∀ x, com x ↔ txnmgrState m x = .committed
  com_lt : ∀ x, com x → x < m.next
  nodup : m.active.Nodup
  active_iff : ∀ x, x ∈ m.active ↔ ∃ l ∈ live, l.txn.id = x
  ids : (live.map (fun l => l.txn.id)).Nodup
  live_ids : ∀ l ∈ live, m.base < l.txn.id ∧ l.txn.id < m.next ∧ ¬ com l.txn.id
  snaps : ∀ l ∈ live, SnapInv m live com l

section

variable {c : Codec} {m m' : TxnMgr} {live ls rs : List LiveTxn} {l : LiveTxn}
  {com com' : UInt64 → Prop} {t : Txn}

theorem mgrInv_opened {p : Pager} (hmax : p.hdr.maxTxnid.toNat + 1 < 2 ^ 64) :
    MgrInv (txnmgrOpen p) [] (fun x => x ≠ 0 ∧ x ≤ p.hdr.maxTxnid) := by
  have hlt : p.hdr.maxTxnid < p.hdr.maxTxnid + 1 := by
    rw [UInt64.lt_iff_toNat_lt, UInt64.toNat_add]
    simp
    omega
  refine ⟨hlt, ?_, ?_, nodup_nil, by simp [txnmgrOpen], nodup_nil, by simp, by simp⟩
  · intro x
    unfold txnmgrState txnmgrOpen
    by_cases h0 : x = 0
    · simp [h0]
    · by_cases hx : x ≤ p.hdr.maxTxnid <;> simp [h0, hx]
  · rintro x ⟨-, hx⟩
    exact UInt64.lt_of_le_of_lt hx hlt

/-- An id that is taken from the counter is new. -/
theorem MgrInv.next_fresh (h : MgrInv m live com) : ¬ com m.next ∧ m.next ∉ m.active := by
  refine ⟨fun hcom => UInt64.lt_irrefl _ (h.com_lt _ hcom), fun hmem => ?_⟩
  obtain ⟨l, hl, hid⟩ := (h.active_iff _).mp hmem
  have hlt := (h.live_ids l hl).2.1
  rw [hid] at hlt
  exact UInt64.lt_irrefl _ hlt

theorem lt_next_succ (hid : m.next.toNat + 1 < 2 ^ 64) : m.next < m.next + 1 := by
  rw [UInt64.lt_iff_toNat_lt, UInt64.toNat_add]
  simp
  omega

/-- No committed id is running. -/
theorem MgrInv.not_active (h : MgrInv m live com) {x : UInt64} (hx : com x) : x ∉ m.active := by
  intro hmem
  obtain ⟨l, hl, rfl⟩ := (h.active_iff _).mp hmem
  exact (h.live_ids l hl).2.2 hx

/-- What changes elsewhere does not touch a snapshot: ids that commit now were running when it
was taken, or started later. -/
theorem SnapInv.step {live' : List LiveTxn} (h : SnapInv m live com l) (hnext : m.next ≤ m'.next)
    (hmono : ∀ x, com x → com' x) (hcom : ∀ x, com' x → com x ∨ ∃ u ∈ live, u.txn.id = x)
    (hlive : ∀ u ∈ live', (∃ v ∈ live, v.txn.id = u.txn.id) ∨ m.next ≤ u.txn.id) :
    SnapInv m' live' com' l := by
  refine ⟨h.self, UInt64.le_trans h.xmax_le hnext, fun x => ?_, fun u hu => ?_⟩
  · rw [h.before]
    refine ⟨fun ⟨hx, hrest⟩ => ⟨hmono x hx, hrest⟩, fun ⟨hx, hlt, hnot⟩ => ?_⟩
    rcases hcom x hx with hx | ⟨u, hu, rfl⟩
    · exact ⟨hx, hlt, hnot⟩
    · rcases h.running u hu with hle | hmem
      · exact absurd hlt (UInt64.not_lt.mpr hle)
      · exact absurd hmem hnot
  · rcases hlive u hu with ⟨v, hv, hid⟩ | hle
    · rw [← hid]
      exact h.running v hv
    · exact Or.inl (UInt64.le_trans h.xmax_le hle)

/-- A snapshot taken now. -/
theorem MgrInv.snapshot (h : MgrInv m live com) (hself : t.snap = takeSnapshot m t.id) :
    SnapInv m live com ⟨t, com⟩ := by
  refine ⟨by rw [hself]; rfl, by rw [hself]; exact UInt64.le_refl _, fun x => ?_, fun u hu => ?_⟩
  · rw [hself]
    exact ⟨fun hx => ⟨hx, h.com_lt x hx, h.not_active hx⟩, fun hx => hx.1⟩
  · rw [hself]
    exact Or.inr ((h.active_iff _).mpr ⟨u, hu, rfl⟩)

/-- The end of a transaction, in state `st`. -/
theorem MgrInv.ends (h : MgrInv m (ls ++ l :: rs) com) (st : XState) (hbase : m'.base = m.base)
    (hnext : m'.next = m.next) (hrecs : m'.recs = setState m.recs l.txn.id st)
    (hactive : m'.active = activeRemove m.active l.txn.id)
    (hcom : ∀ x, com' x ↔ com x ∨ (st = .committed ∧ x = l.txn.id)) : MgrInv m' (ls ++ rs) com' := by
  have hl : l ∈ ls ++ l :: rs := by simp
  obtain ⟨hlo, hhi, hnot⟩ := h.live_ids l hl
  have hsub : ∀ u ∈ ls ++ rs, u ∈ ls ++ l :: rs := by
    intro u hu
    rcases mem_append.mp hu with hu | hu
    · exact mem_append_left _ hu
    · exact mem_append_right _ (mem_cons_of_mem _ hu)
  -- the others have other ids
  have hids := h.ids
  have hperm : (ls ++ l :: rs).Perm (l :: (ls ++ rs)) := perm_middle
  rw [(hperm.map _).nodup_iff, map_cons, nodup_cons] at hids
  have hne : ∀ u ∈ ls ++ rs, u.txn.id ≠ l.txn.id := fun u hu heq =>
    hids.1 (mem_map.mpr ⟨u, hu, heq⟩)
  have hmem : l.txn.id ∈ m.active := (h.active_iff _).mpr ⟨l, hl, rfl⟩
  refine ⟨by rw [hbase, hnext]; exact h.base_lt, fun x => ?_, fun x hx => ?_,
    by rw [hactive]; exact nodup_activeRemove hmem h.nodup, fun x => ?_, hids.2, fun u hu => ?_,
    fun u hu => (h.snaps u (hsub u hu)).step (by rw [hnext]; exact UInt64.le_refl _)
      (fun x hx => (hcom x).mpr (Or.inl hx)) (fun x hx => ?_) (fun v hv => Or.inl ⟨v, hsub v hv, rfl⟩)⟩
  · rw [hcom, txnmgrState_setState hbase hrecs hlo]
    by_cases hx : x = l.txn.id
    · simp [hx, hnot]
    · simp [hx, h.com_iff]
  · rw [hnext]
    rcases (hcom x).mp hx with hx | ⟨-, rfl⟩
    · exact h.com_lt x hx
    · exact hhi
  · rw [hactive, mem_activeRemove hmem h.nodup, h.active_iff]
    constructor
    · rintro ⟨⟨u, hu, rfl⟩, hx⟩
      rcases mem_cons.mp (hperm.mem_iff.mp hu) with rfl | hu
      · exact absurd rfl hx
      · exact ⟨u, hu, rfl⟩
    · rintro ⟨u, hu, rfl⟩
      exact ⟨⟨u, hsub u hu, rfl⟩, hne u hu⟩
  · obtain ⟨hlo', hhi', hnot'⟩ := h.live_ids u (hsub u hu)
    refine ⟨by rw [hbase]; exact hlo', by rw [hnext]; exact hhi', fun hx => ?_⟩
    rcases (hcom _).mp hx with hx | ⟨-, hx⟩
    · exact hnot' hx
    · exact hne u hu hx
  · rcases (hcom x).mp hx with hx | ⟨-, rfl⟩
    · exact Or.inl hx
    · exact Or.inr ⟨l, hl, rfl⟩

/-- The start of a transaction with the next id. -/
theorem MgrInv.starts (h : MgrInv m live com) (hid : m.next.toNat + 1 < 2 ^ 64)
    (hbase : m'.base = m.base) (hnext : m'.next = m.next + 1)
    (hrecs : m'.recs = setState m.recs m.next .active) (hactive : m'.active = m.active ++ [m.next])
    (htid : t.id = m.next) (hsnap : t.snap = takeSnapshot m' t.id) :
    MgrInv m' (live ++ [⟨t, com⟩]) com := by
  have hlt := lt_next_succ hid
  obtain ⟨hfresh, hnot⟩ := h.next_fresh
  have hmem : ∀ u ∈ live ++ [⟨t, com⟩], u ∈ live ∨ u.txn.id = m.next := by
    intro u hu
    rcases mem_append.mp hu with hu | hu
    · exact Or.inl hu
    · rw [mem_singleton.mp hu]
      exact Or.inr htid
  have hinv : ∀ x, x ∈ m'.active ↔ ∃ l ∈ live ++ [(⟨t, com⟩ : LiveTxn)], l.txn.id = x := by
    intro x
    rw [hactive, mem_append, h.active_iff, mem_singleton]
    constructor
    · rintro (⟨l, hl, rfl⟩ | rfl)
      · exact ⟨l, mem_append_left _ hl, rfl⟩
      · exact ⟨_, mem_append_right _ (mem_singleton_self _), htid⟩
    · rintro ⟨l, hl, rfl⟩
      rcases hmem l hl with hl | hl
      · exact Or.inl ⟨l, hl, rfl⟩
      · exact Or.inr hl
  refine ⟨by rw [hbase, hnext]; exact UInt64.lt_trans h.base_lt hlt, fun x => ?_, fun x hx => ?_,
    ?_, hinv, ?_, fun u hu => ?_, fun u hu => ?_⟩
  · rw [txnmgrState_setState hbase hrecs h.base_lt]
    by_cases hx : x = m.next
    · simp [hx, hfresh]
    · simp [hx, h.com_iff]
  · rw [hnext]
    exact UInt64.lt_trans (h.com_lt x hx) hlt
  · rw [hactive, nodup_append]
    exact ⟨h.nodup, nodup_singleton _,
      fun a ha b hb heq => hnot (by rw [mem_singleton.mp hb] at heq; exact heq ▸ ha)⟩
  · rw [map_append, nodup_append]
    refine ⟨h.ids, nodup_singleton _, fun a ha b hb heq => ?_⟩
    obtain ⟨l, hl, rfl⟩ := mem_map.mp ha
    have hb : b = m.next := by simpa [htid] using hb
    exact hnot ((h.active_iff _).mpr ⟨l, hl, heq.trans hb⟩)
  · rw [hbase, hnext]
    rcases hmem u hu with hu | hu
    · obtain ⟨hlo, hhi, hno⟩ := h.live_ids u hu
      exact ⟨hlo, UInt64.lt_trans hhi hlt, hno⟩
    · rw [hu]
      exact ⟨h.base_lt, hlt, hfresh⟩
  · rcases mem_append.mp hu with hu | hu
    · refine (h.snaps u hu).step (by rw [hnext]; exact UInt64.le_of_lt hlt) (fun _ hx => hx)
        (fun _ hx => Or.inl hx) (fun v hv => ?_)
      rcases hmem v hv with hv | hv
      · exact Or.inl ⟨v, hv, rfl⟩
      · exact Or.inr (by rw [hv]; exact UInt64.le_refl _)
    · -- the new snapshot has all running ids in its array
      rw [mem_singleton.mp hu]
      refine ⟨by rw [hsnap]; rfl, by rw [hsnap]; exact UInt64.le_refl _, fun x => ?_, fun v hv => ?_⟩
      · rw [hsnap]
        refine ⟨fun hx => ⟨hx, ?_, fun hact => ?_⟩, fun hx => hx.1⟩
        · change x < m'.next
          rw [hnext]
          exact UInt64.lt_trans (h.com_lt x hx) hlt
        · have hact : x ∈ m'.active := hact
          rw [hactive] at hact
          rcases mem_append.mp hact with hact | hact
          · exact h.not_active hx hact
          · rw [mem_singleton.mp hact] at hx
            exact hfresh hx
      · rw [hsnap]
        exact Or.inr ((hinv _).mpr ⟨v, hv, rfl⟩)

theorem txnBegin_ok_inv {writable : Bool} (hbegin : txnBegin c m iso writable = (.ok, m', some t)) :
    t.id = m.next ∧ t.writable = writable ∧ m'.base = m.base ∧ m'.next = m.next + 1 ∧
      (m'.pager = m.pager ∨ m'.pager = (pagerBegin m.pager).2) := by
  unfold txnBegin at hbegin
  simp only at hbegin
  split at hbegin
  · split at hbegin
    · rename_i p hp
      cases hbegin
      exact ⟨rfl, rfl, rfl, rfl, Or.inr (by rw [hp])⟩
    · cases hbegin
  · cases hbegin
    exact ⟨rfl, rfl, rfl, rfl, Or.inl rfl⟩

theorem MgrInv.begin (h : MgrInv m live com) (hid : m.next.toNat + 1 < 2 ^ 64) {writable : Bool}
    (hbegin : txnBegin c m iso writable = (.ok, m', some t)) :
    MgrInv m' (live ++ [⟨t, com⟩]) com := by
  unfold txnBegin at hbegin
  simp only at hbegin
  split at hbegin
  · split at hbegin
    · cases hbegin
      exact h.starts hid rfl rfl rfl rfl rfl rfl
    · cases hbegin
  · cases hbegin
    exact h.starts hid rfl rfl rfl rfl rfl rfl

theorem MgrInv.refused (h : MgrInv m live com) (hid : m.next.toNat + 1 < 2 ^ 64) {writable : Bool}
    {rc : Status} (hbegin : txnBegin c m iso writable = (rc, m', none)) :
    MgrInv m' live com := by
  unfold txnBegin at hbegin
  simp only at hbegin
  split at hbegin
  · split at hbegin
    · cases hbegin
    · rename_i rc' p hne hpager
      cases hbegin
      -- the id was taken and is given up at once
      set m1 : TxnMgr := { m with next := m.next + 1, recs := setState m.recs m.next .active,
                                  active := m.active ++ [m.next], pager := p } with hm1
      set t1 : Txn := ⟨m.next, iso, takeSnapshot m1 m.next, .active, writable, []⟩ with ht1
      have hstart : MgrInv m1 (live ++ [⟨t1, com⟩]) com := h.starts hid rfl rfl rfl rfl rfl rfl
      have hend : MgrInv (txnRollback c m1 t1).2 (live ++ []) com :=
        hstart.ends .aborted rfl rfl rfl rfl (by simp)
      rw [append_nil] at hend
      exact hend
  · cases hbegin

section

variable (h : MgrInv m (ls ++ l :: rs) com)

include h

/-- A transaction with another snapshot or other savepoints, and any other pages. -/
theorem MgrInv.replace {l' : LiveTxn} (p : Pager) (hid : l'.txn.id = l.txn.id)
    (hsnap : SnapInv m (ls ++ l :: rs) com l') :
    MgrInv { m with pager := p } (ls ++ l' :: rs) com := by
  have hback : ∀ u ∈ ls ++ l' :: rs, u = l' ∨ u ∈ ls ++ l :: rs := by
    intro u hu
    rcases mem_append.mp hu with hu | hu
    · exact Or.inr (mem_append_left _ hu)
    · rcases mem_cons.mp hu with rfl | hu
      · exact Or.inl rfl
      · exact Or.inr (mem_append_right _ (mem_cons_of_mem _ hu))
  have hl : l ∈ ls ++ l :: rs := by simp
  have hids : ∀ u ∈ ls ++ l' :: rs, ∃ v ∈ ls ++ l :: rs, v.txn.id = u.txn.id := by
    intro u hu
    rcases hback u hu with rfl | hu
    · exact ⟨l, hl, hid.symm⟩
    · exact ⟨u, hu, rfl⟩
  have hmap : (ls ++ l' :: rs).map (fun l => l.txn.id) = (ls ++ l :: rs).map (fun l => l.txn.id) := by
    simp [hid]
  refine ⟨h.base_lt, h.com_iff, h.com_lt, h.nodup, fun x => ?_, by rw [hmap]; exact h.ids,
    fun u hu => ?_, fun u hu => ?_⟩
  · have hmem : x ∈ (ls ++ l' :: rs).map (fun l => l.txn.id) ↔
        x ∈ (ls ++ l :: rs).map (fun l => l.txn.id) := by rw [hmap]
    rw [show x ∈ ({ m with pager := p } : TxnMgr).active ↔ x ∈ m.active from Iff.rfl, h.active_iff]
    rw [mem_map, mem_map] at hmem
    exact hmem.symm
  · obtain ⟨v, hv, heq⟩ := hids u hu
    rw [← heq]
    exact h.live_ids v hv
  · have hold : SnapInv m (ls ++ l :: rs) com u := by
      rcases hback u hu with rfl | hu
      · exact hsnap
      · exact h.snaps u hu
    exact hold.step (UInt64.le_refl _) (fun _ hx => hx) (fun _ hx => Or.inl hx)
      (fun v hv => Or.inl (hids v hv))

theorem MgrInv.commit (hcommit : txnCommit c m l.txn = (.ok, m')) :
    MgrInv m' (ls ++ rs) (fun x => com x ∨ x = l.txn.id) := by
  unfold txnCommit at hcommit
  simp only [Prod.mk.injEq] at hcommit
  obtain ⟨hrc, rfl⟩ := hcommit
  exact h.ends .committed rfl rfl (by simp [hrc]) rfl (by simp)

theorem MgrInv.commitFails {rc : Status} (hcommit : txnCommit c m l.txn = (rc, m')) (hrc : rc ≠ .ok) :
    MgrInv m' (ls ++ rs) com := by
  unfold txnCommit at hcommit
  simp only [Prod.mk.injEq] at hcommit
  obtain ⟨heq, rfl⟩ := hcommit
  exact h.ends .aborted rfl rfl (by simp [heq, hrc]) rfl (by simp)

theorem MgrInv.rollback {rc : Status} (hroll : txnRollback c m l.txn = (rc, m')) :
    MgrInv m' (ls ++ rs) com := by
  cases hroll
  exact h.ends .aborted rfl rfl rfl rfl (by simp)

theorem MgrInv.refresh :
    MgrInv m (ls ++ ⟨txnRefreshSnapshot m l.txn, com⟩ :: rs) com :=
  h.replace m.pager rfl (h.snapshot rfl)

end

theorem MgrInv.pager (h : MgrInv m live com) (p : Pager) : MgrInv { m with pager := p } live com :=
  ⟨h.base_lt, h.com_iff, h.com_lt, h.nodup, h.active_iff, h.ids, h.live_ids,
    fun l hl => ⟨(h.snaps l hl).self, (h.snaps l hl).xmax_le, (h.snaps l hl).before,
      (h.snaps l hl).running⟩⟩

theorem MgrInv.id_ne_zero (h : MgrInv m live com) (hl : l ∈ live) : l.txn.id ≠ 0 := by
  intro hz
  have hlt := (h.live_ids l hl).1
  rw [hz] at hlt
  exact absurd (UInt64.lt_iff_toNat_lt.mp hlt) (by simp)

/-- **Every history of a manager** keeps the invariant. -/
theorem MgrRun.inv (hrun : MgrRun c m live com) : MgrInv m live com := by
  induction hrun with
  | opened p hmax => exact mgrInv_opened hmax
  | begin m m' live com iso writable t _ hid hbegin ih => exact ih.begin hid hbegin
  | refused m m' live com iso writable rc _ hid hbegin ih => exact ih.refused hid hbegin
  | commit m m' ls rs l com _ hcommit ih => exact ih.commit hcommit
  | commitFails m m' ls rs l com rc _ hcommit hrc ih => exact ih.commitFails hcommit hrc
  | rollback m m' ls rs l com rc _ hroll ih => exact ih.rollback hroll
  | refresh m ls rs l com _ ih => exact ih.refresh
  | work m ls rs l com p sps _ ih =>
    have hl := ih.snaps l (by simp)
    exact ih.replace p rfl ⟨hl.self, hl.xmax_le, hl.before, hl.running⟩

/-- **A snapshot shows exactly what was committed before it**, and the transaction's own
changes. As long as the transaction does not refresh its snapshot, the answer for a version
never changes, whatever the others do. -/
theorem txnVisible_iff_before (hrun : MgrRun c m live com) (hl : l ∈ live) (xmin xmax : UInt64) :
    (txnVisible m l.txn xmin xmax = true ↔
      (xmin = l.txn.id ∨ l.before xmin) ∧ (xmax = 0 ∨ (xmax ≠ l.txn.id ∧ ¬ l.before xmax))) ∧
    ∀ m' live' com', MgrRun c m' live' com' → l ∈ live' →
      txnVisible m' l.txn xmin xmax = txnVisible m l.txn xmin xmax := by
  have hvis : ∀ {m : TxnMgr} {live : List LiveTxn} {com : UInt64 → Prop}, MgrRun c m live com →
      l ∈ live → (txnVisible m l.txn xmin xmax = true ↔
        (xmin = l.txn.id ∨ l.before xmin) ∧
          (xmax = 0 ∨ (xmax ≠ l.txn.id ∧ ¬ l.before xmax))) := by
    intro m live com hrun hl
    have hinv := hrun.inv
    have hsnap := hinv.snaps l hl
    unfold txnVisible
    rw [mvccVisible_iff l.before (fun x => by rw [hsnap.before, hinv.com_iff]),
      hsnap.self]
  refine ⟨hvis hrun hl, fun m' live' com' hrun' hl' => ?_⟩
  rw [Bool.eq_iff_iff, hvis hrun hl, hvis hrun' hl']

end

/-- Two transactions of a new database, one after the other: the second sees what the first
created. -/
theorem txnVisible_after_commit : ∃ m1 t1 m2 m3 t3,
    txnBegin Codec.identity (txnmgrOpen freshPager) .snapshot false = (.ok, m1, some t1) ∧
      txnCommit Codec.identity m1 t1 = (.ok, m2) ∧
      txnBegin Codec.identity m2 .snapshot false = (.ok, m3, some t3) ∧
      txnVisible m3 t3 t1.id 0 = true := by
  have hrun0 : MgrRun Codec.identity (txnmgrOpen freshPager) [] _ := .opened freshPager (by decide)
  refine ⟨_, _, _, _, _, rfl, rfl, rfl, ?_⟩
  have hrun1 := MgrRun.begin _ _ _ _ .snapshot false _ hrun0 (by decide) rfl
  have hrun2 := MgrRun.commit _ _ [] [] _ _ hrun1 rfl
  have hrun3 := MgrRun.begin _ _ _ _ .snapshot false _ hrun2 (by decide) rfl
  exact (txnVisible_iff_before hrun3 (mem_singleton_self _) _ 0).1.mpr
    ⟨Or.inr (Or.inr rfl), Or.inl rfl⟩

end Tdb
