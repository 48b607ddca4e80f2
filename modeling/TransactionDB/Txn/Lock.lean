import TransactionDB.Common.Util
import TransactionDB.Lib.HashChain

/-!
# TransactionDB — the lock table

`src/txn/tdb_lock.c`. Resources are in a hash table with chains and each has a list of holders. A
request is granted, or refused by wait-die: the answer compares the requester with the first holder
that it conflicts with.

What a call does to the holders of one resource is `acquireOn`; the table is nothing but a function
from resources to holders (`holders_acquire`, `holders_releaseAll`). The invariant of the table is
`LockInv`; `lock_table_iff` says for every sequence of calls when a transaction has the mode that it
was granted.
-/

namespace Tdb

open HashChain List

/-- `tdb_lockmode`. -/
inductive LockMode where
  | none
  | shared
  | excl
  deriving DecidableEq, Repr

/-- `tdb_restype`. -/
inductive ResType where
  | table
  | row
  deriving DecidableEq, Repr

/-- What a resource is found by. -/
structure ResKey where
  type : ResType
  id : UInt64
  sub : UInt64
  deriving DecidableEq, Repr

structure Holder where
  txn : UInt64
  mode : LockMode
  deriving DecidableEq, Repr

structure Resource where
  key : ResKey
  holders : List Holder
  deriving DecidableEq, Repr

/-- The number of a type, as it is hashed. -/
def ResType.code : ResType → UInt64
  | .table => 0
  | .row => 1

/-- `res_hash`; the three words are hashed as they lie in memory. -/
def resHash (k : ResKey) : Fin 256 :=
  Fin.ofNat 256 (fnv1a ((putU64 k.type.code).reverse ++ (putU64 k.id).reverse ++
    (putU64 k.sub).reverse)).toNat

def resources : Hashing Resource ResKey 256 := ⟨Resource.key, resHash⟩

/-- `tdb_lockmgr`. -/
structure LockMgr where
  buckets : Chains Resource 256
  wf : resources.WF buckets

def LockMgr.new : LockMgr := ⟨fun _ => [], Hashing.wf_empty⟩

/-- `res_find` without `create`. -/
def LockMgr.resFind (m : LockMgr) (k : ResKey) : Option Resource := resources.lookup m.buckets k

/-- `res_find` with `create`: the resource is there afterwards. -/
def LockMgr.resCreate (m : LockMgr) (k : ResKey) : LockMgr :=
  if h : m.resFind k = none then ⟨resources.add m.buckets ⟨k, []⟩, m.wf.add h⟩ else m

/-- The holders of a resource; one that is not there has none. -/
def LockMgr.holders (m : LockMgr) (k : ResKey) : List Holder :=
  ((m.resFind k).map Resource.holders).getD []

/-- The holders of a resource that is there are changed. -/
def LockMgr.setHolders (m : LockMgr) (k : ResKey) (hs : List Holder) : LockMgr :=
  ⟨resources.modify m.buckets k fun r => { r with holders := hs }, m.wf.modify k fun _ => rfl⟩

/-- `mode_conflict`. -/
def modeConflict (a b : LockMode) : Bool := a = .excl || b = .excl

/-- Wait-die: the older requester waits, the younger one aborts. -/
def waitDie (txn : UInt64) (h : Holder) : Status := if txn < h.txn then .busy else .abort

/-- The entry of the transaction that the loop over the holders ends with becomes exclusive. -/
def upgradeSelf (txn : UInt64) : List Holder → List Holder
  | [] => []
  | h :: hs =>
    if h.txn = txn ∧ ∀ h' ∈ hs, h'.txn ≠ txn then { h with mode := .excl } :: hs
    else h :: upgradeSelf txn hs

/-- `tdb_lock_acquire` on the holders of the resource. -/
def acquireOn (hs : List Holder) (txn : UInt64) (mode : LockMode) : Status × List Holder :=
  match (hs.filter fun h => h.txn = txn).getLast? with
  | some self =>
    if mode = .excl ∧ self.mode ≠ .excl then
      -- an upgrade conflicts with every other holder
      match hs.find? fun h => h.txn ≠ txn with
      | some h => (waitDie txn h, hs)
      | none => (.ok, upgradeSelf txn hs)
    else (.ok, hs)
  | none =>
    match hs.find? fun h => modeConflict mode h.mode with
    | some h => (waitDie txn h, hs)
    | none => (.ok, ⟨txn, mode⟩ :: hs)

/-- `tdb_lock_acquire`. -/
def lockAcquire (m : LockMgr) (txn : UInt64) (k : ResKey) (mode : LockMode) : Status × LockMgr :=
  let m := m.resCreate k
  let (rc, hs) := acquireOn (m.holders k) txn mode
  (rc, m.setHolders k hs)

/-- The loop over the holders of one resource in `tdb_lock_release_all`. -/
def Resource.release (txn : UInt64) (r : Resource) : Resource :=
  { r with holders := r.holders.filter fun h => h.txn ≠ txn }

/-- `tdb_lock_release_all`. -/
def lockReleaseAll (m : LockMgr) (txn : UInt64) : LockMgr :=
  ⟨fun b => (m.buckets b).map (Resource.release txn), m.wf.map fun _ => rfl⟩

/-- `tdb_lock_holder_count`. -/
def lockHolderCount (m : LockMgr) (k : ResKey) : Nat := (m.holders k).length

/-! ## The table as a function from resources to holders -/

section Holders

variable {m : LockMgr} {txn : UInt64} {k : ResKey} {mode : LockMode}

/-- A resource that is made has no holders, as before. -/
theorem holders_resCreate (k k' : ResKey) : (m.resCreate k).holders k' = m.holders k' := by
  unfold LockMgr.resCreate
  split
  · rename_i hnone
    simp only [LockMgr.holders, LockMgr.resFind, Hashing.lookup_add]
    by_cases hk : k' = k
    · subst hk
      rw [show resources.lookup m.buckets k' = none from hnone]
      simp [resources]
    · simp [resources, hk]
  · rfl

theorem resFind_resCreate (k : ResKey) : ∃ r, (m.resCreate k).resFind k = some r := by
  unfold LockMgr.resCreate
  split
  · exact ⟨⟨k, []⟩, by simp [LockMgr.resFind, Hashing.lookup_add, resources]⟩
  · exact Option.ne_none_iff_exists'.mp ‹_›

theorem holders_setHolders {r : Resource} (hr : m.resFind k = some r) (hs : List Holder) (k' : ResKey) :
    (m.setHolders k hs).holders k' = if k' = k then hs else m.holders k' := by
  simp only [LockMgr.holders, LockMgr.resFind, LockMgr.setHolders]
  rw [Hashing.lookup_modify (f := fun r : Resource => { r with holders := hs }) fun _ => rfl]
  by_cases hk : k' = k
  · subst hk
    rw [show resources.lookup m.buckets k' = some r from hr]
    simp
  · simp [hk]

/-- A request changes the holders of its resource and no others. -/
theorem holders_acquire (m : LockMgr) (txn : UInt64) (k : ResKey) (mode : LockMode) (k' : ResKey) :
    (lockAcquire m txn k mode).2.holders k' =
      if k' = k then (acquireOn (m.holders k) txn mode).2 else m.holders k' := by
  obtain ⟨r, hr⟩ := resFind_resCreate (m := m) k
  simp only [lockAcquire, holders_resCreate]
  rw [holders_setHolders hr, holders_resCreate]

theorem status_acquire (m : LockMgr) (txn : UInt64) (k : ResKey) (mode : LockMode) :
    (lockAcquire m txn k mode).1 = (acquireOn (m.holders k) txn mode).1 := by
  simp only [lockAcquire, holders_resCreate]

theorem holders_releaseAll (m : LockMgr) (txn : UInt64) (k : ResKey) :
    (lockReleaseAll m txn).holders k = (m.holders k).filter fun h => h.txn ≠ txn := by
  simp only [LockMgr.holders, LockMgr.resFind, lockReleaseAll]
  rw [Hashing.lookup_map (f := Resource.release txn) fun _ => rfl]
  cases resources.lookup m.buckets k <;> rfl

end Holders

/-! ## What a request can do -/

section Acquire

variable {hs : List Holder} {txn : UInt64} {mode : LockMode}

theorem waitDie_ne_ok (h : Holder) : waitDie txn h ≠ .ok := by
  unfold waitDie
  split <;> decide

theorem getLast?_self_none (h : (hs.filter fun h => h.txn = txn).getLast? = none) :
    ∀ h ∈ hs, h.txn ≠ txn := by
  have hnil : (hs.filter fun h => h.txn = txn) = [] := getLast?_eq_none_iff.mp h
  intro h' hh' heq
  have hmem : h' ∈ hs.filter fun h => h.txn = txn := mem_filter.mpr ⟨hh', by simpa using heq⟩
  rw [hnil] at hmem
  exact not_mem_nil hmem

/-- The ways in which a request ends. A refusal names the holder that decides it. -/
inductive AcquireCase (hs : List Holder) (txn : UInt64) (mode : LockMode) : Status × List Holder → Prop
  | upgradeRefused (self h : Holder) (hself : self ∈ hs) (htxn : self.txn = txn) (hmode : mode = .excl)
      (hfirst : hs.find? (fun h => h.txn ≠ txn) = some h) : AcquireCase hs txn mode (waitDie txn h, hs)
  | upgraded (self : Holder) (hself : self ∈ hs) (htxn : self.txn = txn) (hmode : mode = .excl)
      (halone : ∀ h ∈ hs, h.txn = txn) : AcquireCase hs txn mode (.ok, upgradeSelf txn hs)
  | held (self : Holder) (hself : self ∈ hs) (htxn : self.txn = txn)
      (hmode : mode ≠ .excl ∨ self.mode = .excl) : AcquireCase hs txn mode (.ok, hs)
  | refused (h : Holder) (hnew : ∀ h ∈ hs, h.txn ≠ txn)
      (hfirst : hs.find? (fun h => modeConflict mode h.mode) = some h) :
      AcquireCase hs txn mode (waitDie txn h, hs)
  | granted (hnew : ∀ h ∈ hs, h.txn ≠ txn) (hfree : ∀ h ∈ hs, modeConflict mode h.mode = false) :
      AcquireCase hs txn mode (.ok, ⟨txn, mode⟩ :: hs)

theorem acquireOn_cases (hs : List Holder) (txn : UInt64) (mode : LockMode) :
    AcquireCase hs txn mode (acquireOn hs txn mode) := by
  unfold acquireOn
  split
  · rename_i self hlast
    have hmem : self ∈ hs.filter fun h => h.txn = txn := mem_of_getLast? hlast
    obtain ⟨hself, htxn⟩ := mem_filter.mp hmem
    have htxn : self.txn = txn := by simpa using htxn
    split
    · rename_i hup
      split
      · rename_i h hfirst
        exact .upgradeRefused self h hself htxn hup.1 hfirst
      · rename_i hnone
        refine .upgraded self hself htxn hup.1 fun h hh => ?_
        simpa using find?_eq_none.mp hnone h hh
    · rename_i hup
      exact .held self hself htxn (by tauto)
  · rename_i hnone
    have hnew := getLast?_self_none hnone
    split
    · rename_i h hfirst
      exact .refused h hnew hfirst
    · rename_i hfree
      exact .granted hnew fun h hh => by simpa using find?_eq_none.mp hfree h hh

/-- A refused request leaves the holders as they are. -/
theorem acquireOn_refused (h : (acquireOn hs txn mode).1 ≠ .ok) : (acquireOn hs txn mode).2 = hs := by
  have hcase := acquireOn_cases hs txn mode
  generalize acquireOn hs txn mode = out at h hcase
  cases hcase with
  | upgraded self hself htxn hmode halone | granted hnew hfree => exact absurd rfl h
  | _ => rfl

/-- A transaction that is alone and has one entry. -/
theorem eq_singleton_of_alone {self : Holder} (hnd : (hs.map Holder.txn).Nodup) (hself : self ∈ hs)
    (halone : ∀ h ∈ hs, h.txn = self.txn) : hs = [self] := by
  cases hs with
  | nil => exact absurd hself not_mem_nil
  | cons h hs =>
    cases hs with
    | nil => rw [mem_singleton.mp hself]
    | cons h' hs =>
      have h₁ := halone h mem_cons_self
      have h₂ := halone h' (mem_cons_of_mem h mem_cons_self)
      simp [h₁, h₂] at hnd

theorem upgradeSelf_singleton (h : Holder) : upgradeSelf h.txn [h] = [⟨h.txn, .excl⟩] := by
  simp [upgradeSelf]

end Acquire

/-! ## Sequences of calls -/

inductive LockCall where
  | acquire (txn : UInt64) (k : ResKey) (mode : LockMode)
  | releaseAll (txn : UInt64)
  deriving DecidableEq, Repr

/-- The table after a call. -/
def LockMgr.after (m : LockMgr) : LockCall → LockMgr
  | .acquire txn k mode => (lockAcquire m txn k mode).2
  | .releaseAll txn => lockReleaseAll m txn

/-- A request for a lock. -/
structure LockReq where
  txn : UInt64
  key : ResKey
  mode : LockMode
  deriving DecidableEq, Repr

/-- The table, and the requests that were granted and not released. -/
structure LockState where
  mgr : LockMgr
  granted : List LockReq

def LockState.new : LockState := ⟨.new, []⟩

def LockState.step (s : LockState) : LockCall → LockState
  | .acquire txn k mode =>
    let (rc, mgr) := lockAcquire s.mgr txn k mode
    ⟨mgr, if rc = .ok then ⟨txn, k, mode⟩ :: s.granted else s.granted⟩
  | .releaseAll txn => ⟨lockReleaseAll s.mgr txn, s.granted.filter fun g => g.txn ≠ txn⟩

def LockState.run (s : LockState) (calls : List LockCall) : LockState := calls.foldl step s

/-- No transaction has two entries for a resource, and an exclusive holder is alone. -/
structure HoldersOk (hs : List Holder) : Prop where
  once : (hs.map Holder.txn).Nodup
  alone : ∀ h ∈ hs, h.mode = .excl → ∀ h' ∈ hs, h' = h

/-- The transaction has the mode it was granted, or more. -/
def LockReq.Held (g : LockReq) (hs : List Holder) : Prop :=
  ∃ h ∈ hs, h.txn = g.txn ∧ (h.mode = g.mode ∨ h.mode = .excl)

section Invariant

variable {hs : List Holder} {txn : UInt64} {mode : LockMode}

theorem HoldersOk.acquire (h : HoldersOk hs) (txn : UInt64) (mode : LockMode) :
    HoldersOk (acquireOn hs txn mode).2 := by
  have hcase := acquireOn_cases hs txn mode
  generalize acquireOn hs txn mode = out at hcase
  cases hcase with
  | upgraded self hself htxn hmode halone =>
    subst htxn
    obtain rfl := eq_singleton_of_alone h.once hself halone
    rw [upgradeSelf_singleton]
    exact ⟨nodup_singleton _, by simp⟩
  | granted hnew hfree =>
    refine ⟨nodup_cons.mpr ⟨fun hmem => ?_, h.once⟩, fun g hg hexcl => ?_⟩
    · obtain ⟨g, hg, htxn⟩ := mem_map.mp hmem
      exact hnew g hg htxn
    · -- an exclusive request conflicts with every holder, and every request with an exclusive one
      rcases mem_cons.mp hg with rfl | hg
      · have hnil : hs = [] := by
          refine eq_nil_iff_forall_not_mem.mpr fun g hg => ?_
          have hc := hfree g hg
          simp only [modeConflict, Bool.or_eq_false_iff, decide_eq_false_iff_not] at hc
          exact hc.1 hexcl
        simp [hnil]
      · have hc := hfree g hg
        simp [modeConflict, hexcl] at hc
  | _ => exact h

theorem HoldersOk.release (h : HoldersOk hs) (txn : UInt64) :
    HoldersOk (hs.filter fun h => h.txn ≠ txn) :=
  ⟨h.once.sublist (filter_sublist.map _), fun g hg hexcl g' hg' =>
    h.alone g (mem_of_mem_filter hg) hexcl g' (mem_of_mem_filter hg')⟩

/-- What was granted stays held. -/
theorem LockReq.Held.acquire {g : LockReq} (h : HoldersOk hs) (hg : g.Held hs) (txn : UInt64)
    (mode : LockMode) : g.Held (acquireOn hs txn mode).2 := by
  have hcase := acquireOn_cases hs txn mode
  generalize acquireOn hs txn mode = out at hcase
  cases hcase with
  | upgraded self hself htxn hmode halone =>
    subst htxn
    obtain rfl := eq_singleton_of_alone h.once hself halone
    obtain ⟨h', hh', htxn, -⟩ := hg
    rw [upgradeSelf_singleton]
    rw [mem_singleton.mp hh'] at htxn
    exact ⟨⟨self.txn, .excl⟩, mem_singleton_self _, htxn, .inr rfl⟩
  | granted hnew hfree =>
    obtain ⟨h', hh', hrest⟩ := hg
    exact ⟨h', mem_cons_of_mem _ hh', hrest⟩
  | _ => exact hg

/-- Whether the request leaves its transaction with the mode it asks for: an entry of another mode,
neither exclusive nor asked to become so, is left as it is. -/
def ModeKept (hs : List Holder) (txn : UInt64) (mode : LockMode) : Prop :=
  ∀ h ∈ hs, h.txn = txn → mode = .excl ∨ h.mode = mode ∨ h.mode = .excl

/-- A request that is granted gives the mode, unless the transaction has an entry of another one. -/
theorem held_acquire_iff (h : HoldersOk hs) (k : ResKey) (hok : (acquireOn hs txn mode).1 = .ok) :
    LockReq.Held ⟨txn, k, mode⟩ (acquireOn hs txn mode).2 ↔ ModeKept hs txn mode := by
  have hcase := acquireOn_cases hs txn mode
  generalize acquireOn hs txn mode = out at hok hcase
  cases hcase with
  | upgradeRefused self h' hself htxn hmode hfirst | refused h' hnew hfirst => exact absurd hok (waitDie_ne_ok h')
  | upgraded self hself htxn hmode halone =>
    subst htxn hmode
    obtain rfl := eq_singleton_of_alone h.once hself halone
    rw [upgradeSelf_singleton]
    exact iff_of_true ⟨⟨self.txn, .excl⟩, mem_singleton_self _, rfl, .inr rfl⟩
      fun _ _ _ => .inl rfl
  | held self hself htxn hmode =>
    -- the entry of the transaction is the only one
    have hself' : ∀ g ∈ hs, g.txn = txn → g = self := fun g hg hgt =>
      inj_on_of_nodup_map h.once hg hself (hgt.trans htxn.symm)
    constructor
    · rintro ⟨g, hg, hgt, hgm⟩ g' hg' hgt'
      rw [hself' g' hg' hgt', ← hself' g hg hgt]
      exact .inr hgm
    · intro hkept
      refine ⟨self, hself, htxn, ?_⟩
      rcases hkept self hself htxn with rfl | hmode'
      · rcases hmode with hne | hexcl
        · exact absurd rfl hne
        · exact .inr hexcl
      · exact hmode'
  | granted hnew hfree =>
    exact iff_of_true ⟨_, mem_cons_self, rfl, .inl rfl⟩
      fun g hg hgt => absurd hgt (hnew g hg)

end Invariant

/-- What is always so: the holders are in order, a refused request changes no holder of any resource,
and a release removes the entries of its transaction and no others. -/
structure LockInv (m : LockMgr) : Prop where
  holders : ∀ k, HoldersOk (m.holders k)
  refused : ∀ txn k mode, (lockAcquire m txn k mode).1 ≠ .ok →
    ∀ k', (lockAcquire m txn k mode).2.holders k' = m.holders k'
  release : ∀ txn k, (lockReleaseAll m txn).holders k = (m.holders k).filter fun h => h.txn ≠ txn

/-- All of it, with what was granted. -/
def LockState.Ok (s : LockState) : Prop := LockInv s.mgr ∧ ∀ g ∈ s.granted, g.Held (s.mgr.holders g.key)

/-- The call leaves its transaction with the mode it asks for. -/
def LockState.CallKept (s : LockState) : LockCall → Prop
  | .acquire txn k mode => ModeKept (s.mgr.holders k) txn mode
  | .releaseAll _ => True

section Runs

variable {s : LockState}

theorem lockInv_of_holders {m : LockMgr} (h : ∀ k, HoldersOk (m.holders k)) : LockInv m := by
  refine ⟨h, fun txn k mode hrc k' => ?_, fun txn k => holders_releaseAll m txn k⟩
  rw [holders_acquire]
  rw [status_acquire] at hrc
  split
  · rename_i hk
    rw [hk, acquireOn_refused hrc]
  · rfl

theorem LockInv.after {m : LockMgr} (h : LockInv m) (call : LockCall) : LockInv (m.after call) := by
  refine lockInv_of_holders fun k' => ?_
  cases call with
  | acquire txn k mode =>
    rw [LockMgr.after, holders_acquire]
    split
    · exact (h.holders k).acquire txn mode
    · exact h.holders k'
  | releaseAll txn =>
    rw [LockMgr.after, holders_releaseAll]
    exact (h.holders k').release txn

theorem LockState.step_mgr (s : LockState) (call : LockCall) : (s.step call).mgr = s.mgr.after call := by
  cases call <;> rfl

theorem LockInv.run (calls : List LockCall) : ∀ {m : LockMgr}, LockInv m →
    LockInv (calls.foldl LockMgr.after m) := by
  induction calls with
  | nil => exact fun h => h
  | cons call calls ih => exact fun h => ih (h.after call)

theorem LockState.run_mgr (calls : List LockCall) : ∀ s : LockState,
    (s.run calls).mgr = calls.foldl LockMgr.after s.mgr := by
  induction calls with
  | nil => exact fun _ => rfl
  | cons call calls ih => exact fun s => (ih (s.step call)).trans (by rw [s.step_mgr, foldl_cons])

/-- One call keeps what was granted, and gives what it grants, exactly if it keeps the mode. -/
theorem LockState.Ok.step_iff (h : s.Ok) (call : LockCall) : (s.step call).Ok ↔ s.CallKept call := by
  obtain ⟨hinv, hheld⟩ := h
  have hinv' : LockInv (s.step call).mgr := s.step_mgr call ▸ hinv.after call
  cases call with
  | acquire txn k mode =>
    have hold : ∀ g ∈ s.granted, g.Held ((lockAcquire s.mgr txn k mode).2.holders g.key) := by
      intro g hg
      rw [holders_acquire]
      split
      · rename_i hk
        exact (hk ▸ hheld g hg : g.Held (s.mgr.holders k)).acquire (hinv.holders k) txn mode
      · exact hheld g hg
    have hnew := @held_acquire_iff (s.mgr.holders k) txn mode (hinv.holders k) k
    rw [← status_acquire] at hnew
    simp only [LockState.Ok, LockState.step, LockState.CallKept] at hinv' ⊢
    by_cases hok : (lockAcquire s.mgr txn k mode).1 = .ok
    · simp only [hok, if_true, mem_cons, forall_eq_or_imp, ← hnew hok]
      have hself : (lockAcquire s.mgr txn k mode).2.holders k =
          (acquireOn (s.mgr.holders k) txn mode).2 := by rw [holders_acquire, if_pos rfl]
      rw [← hself]
      exact ⟨fun h => h.2.1, fun h => ⟨hinv', h, hold⟩⟩
    · simp only [hok, if_false]
      refine iff_of_true ⟨hinv', hold⟩ fun g hg hgt => ?_
      -- a request that is refused is new or for an upgrade
      rw [status_acquire] at hok
      have hcase := acquireOn_cases (s.mgr.holders k) txn mode
      generalize acquireOn (s.mgr.holders k) txn mode = out at hok hcase
      cases hcase with
      | upgradeRefused self h' hself htxn hmode hfirst => exact .inl hmode
      | refused h' hnew hfirst => exact absurd hgt (hnew g hg)
      | _ => exact absurd rfl hok
  | releaseAll txn =>
    refine iff_of_true ⟨hinv', fun g hg => ?_⟩ trivial
    obtain ⟨hg, hne⟩ := mem_filter.mp hg
    obtain ⟨h', hh', htxn, hmode⟩ := hheld g hg
    show g.Held ((lockReleaseAll s.mgr txn).holders g.key)
    rw [holders_releaseAll]
    exact ⟨h', mem_filter.mpr ⟨hh', by simpa [htxn] using hne⟩, htxn, hmode⟩

/-- Every call of the sequence keeps the mode, when its turn comes. -/
def LockState.CallsKept (s : LockState) : List LockCall → Prop
  | [] => True
  | call :: calls => s.CallKept call ∧ (s.step call).CallsKept calls

theorem LockState.Ok.run_iff (calls : List LockCall) : ∀ {s : LockState}, s.Ok →
    ((∀ pre, pre <+: calls → (s.run pre).Ok) ↔ s.CallsKept calls) := by
  induction calls with
  | nil =>
    intro s h
    refine iff_of_true (fun pre hpre => ?_) trivial
    rw [List.prefix_nil.mp hpre]
    exact h
  | cons call calls ih =>
    intro s h
    rw [LockState.CallsKept, ← h.step_iff call]
    constructor
    · intro hall
      have hstep : (s.step call).Ok := hall [call] ⟨calls, rfl⟩
      refine ⟨hstep, (ih hstep).mp fun pre hpre => ?_⟩
      exact hall (call :: pre) (List.cons_prefix_cons.mpr ⟨rfl, hpre⟩)
    · rintro ⟨hstep, hkept⟩ pre hpre
      cases pre with
      | nil => exact h
      | cons call' pre =>
        obtain ⟨rfl, hrest⟩ := List.cons_prefix_cons.mp hpre
        exact (ih hstep).mpr hkept pre hrest

end Runs

theorem LockState.ok_new : LockState.new.Ok :=
  ⟨lockInv_of_holders fun _ => ⟨nodup_nil, fun _ hh => absurd hh not_mem_nil⟩,
    fun _ hg => absurd hg not_mem_nil⟩

end Tdb
