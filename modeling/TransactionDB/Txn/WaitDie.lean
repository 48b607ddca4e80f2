import TransactionDB.Txn.Lock

/-!
# TransactionDB — who waits for whom

Wait-die keeps locks free of deadlock if a transaction only ever waits for younger ones. The lock
table compares a requester with the first holder that it conflicts with, and a resource can have many
holders; and a lock is granted without a look at those who wait for the resource. Both can make a
transaction wait for an older one.

`busy_waits_iff` is the first of the two, for one request in any table, and `wait_die_iff` says when
the waits-for graph has no cycle: in every state of a run in which the first holder decides as all of
them would, and no lock is granted over a younger waiter.
-/

namespace Tdb

open List

/-- A request is in conflict with the entry of another transaction. -/
def Conflicts (txn : UInt64) (mode : LockMode) (h : Holder) : Prop :=
  h.txn ≠ txn ∧ modeConflict mode h.mode = true

instance (txn : UInt64) (mode : LockMode) (h : Holder) : Decidable (Conflicts txn mode h) :=
  inferInstanceAs (Decidable (_ ∧ _))

/-- Whoever waits is older than all that it waits for. -/
def BusyIsOlder (m : LockMgr) (txn : UInt64) (k : ResKey) (mode : LockMode) : Prop :=
  (lockAcquire m txn k mode).1 = .busy → ∀ h ∈ m.holders k, Conflicts txn mode h → txn < h.txn

/-- The first holder with which the request conflicts speaks for the others. -/
def FirstDecides (hs : List Holder) (txn : UInt64) (mode : LockMode) : Prop :=
  ∀ h, (hs.find? fun h => Conflicts txn mode h) = some h → txn < h.txn →
    ∀ h' ∈ hs, Conflicts txn mode h' → txn < h'.txn

section Busy

variable {hs : List Holder} {txn : UInt64} {mode : LockMode}

theorem waitDie_busy_iff (h : Holder) : waitDie txn h = .busy ↔ txn < h.txn := by
  unfold waitDie
  split <;> simp_all

/-- The answer BUSY is the answer of the first holder in conflict. -/
theorem acquireOn_busy_iff (hok : HoldersOk hs) : (acquireOn hs txn mode).1 = .busy ↔
    ∃ h, (hs.find? fun h => Conflicts txn mode h) = some h ∧ txn < h.txn := by
  have hcase := acquireOn_cases hs txn mode
  generalize acquireOn hs txn mode = out at hcase
  -- where the first holder in conflict is known
  have hdecided : ∀ h, (hs.find? fun h => Conflicts txn mode h) = some h →
      (waitDie txn h = .busy ↔
        ∃ h, (hs.find? fun h => Conflicts txn mode h) = some h ∧ txn < h.txn) := by
    intro h hfirst
    rw [hfirst, waitDie_busy_iff]
    simp
  -- where there is none
  have hnone : (∀ h ∈ hs, ¬ Conflicts txn mode h) →
      ¬ ∃ h, (hs.find? fun h => Conflicts txn mode h) = some h ∧ txn < h.txn := by
    rintro hfree ⟨h, hfirst, -⟩
    exact hfree h (mem_of_find?_eq_some hfirst) (by simpa using find?_some hfirst)
  cases hcase with
  | upgradeRefused self h hself htxn hmode hfirst =>
    refine hdecided h ?_
    subst hmode
    rw [← hfirst]
    exact find?_congr fun h _ => by simp [Conflicts, modeConflict]
  | refused h hnew hfirst =>
    refine hdecided h ?_
    rw [← hfirst]
    exact find?_congr fun h hh => by simp [Conflicts, hnew h hh]
  | upgraded self hself htxn hmode halone =>
    exact iff_of_false (by simp) (hnone fun h hh hc => hc.1 (halone h hh))
  | granted hnew hfree =>
    exact iff_of_false (by simp) (hnone fun h hh hc =>
      Bool.noConfusion ((hfree h hh).symm.trans hc.2))
  | held self hself htxn hmode =>
    refine iff_of_false (by simp) (hnone fun h hh hc => hc.1 ?_)
    -- another holder in conflict would be exclusive, or next to an exclusive one
    have hconf := hc.2
    simp only [modeConflict, Bool.or_eq_true, decide_eq_true_eq] at hconf
    rcases hconf with hexcl | hexcl
    · rcases hmode with hne | hself'
      · exact absurd hexcl hne
      · rw [hok.alone self hself hself' h hh, htxn]
    · rw [← hok.alone h hh hexcl self hself, htxn]

/-- **One request.** -/
theorem busyIsOlder_iff {m : LockMgr} (h : LockInv m) (txn : UInt64) (k : ResKey) (mode : LockMode) :
    BusyIsOlder m txn k mode ↔ FirstDecides (m.holders k) txn mode := by
  rw [BusyIsOlder, status_acquire, acquireOn_busy_iff (h.holders k)]
  exact ⟨fun hall g hfirst hlt => hall ⟨g, hfirst, hlt⟩,
    fun hall ⟨g, hfirst, hlt⟩ => hall g hfirst hlt⟩

end Busy

/-! ## Waiting -/

/-- The table, and the requests that were answered BUSY. A transaction waits until its next call. -/
structure WaitState where
  mgr : LockMgr
  waiting : List LockReq

namespace WaitState

def new : WaitState := ⟨.new, []⟩

def step (s : WaitState) : LockCall → WaitState
  | .acquire txn k mode =>
    let (rc, mgr) := lockAcquire s.mgr txn k mode
    let others := s.waiting.filter fun r => r.txn ≠ txn
    ⟨mgr, if rc = .busy then ⟨txn, k, mode⟩ :: others else others⟩
  | .releaseAll txn => ⟨lockReleaseAll s.mgr txn, s.waiting.filter fun r => r.txn ≠ txn⟩

def run (s : WaitState) (calls : List LockCall) : WaitState := calls.foldl step s

/-- The waits-for graph: from each waiting transaction to every holder in conflict. -/
def WaitsFor (s : WaitState) (txn other : UInt64) : Prop :=
  ∃ r ∈ s.waiting, r.txn = txn ∧ ∃ h ∈ s.mgr.holders r.key, h.txn = other ∧ Conflicts txn r.mode h

/-- There is no deadlock. -/
def Acyclic (s : WaitState) : Prop := ∀ txn, ¬ Relation.TransGen s.WaitsFor txn txn

/-- The first holder decides, and a lock that is granted is in conflict with no younger waiter. -/
def CallSafe (s : WaitState) : LockCall → Prop
  | .acquire txn k mode => FirstDecides (s.mgr.holders k) txn mode ∧
      ((lockAcquire s.mgr txn k mode).1 = .ok →
        ∀ r ∈ s.waiting, r.txn ≠ txn → r.key = k → modeConflict r.mode mode = true → r.txn < txn)
  | .releaseAll _ => True

/-- Every call is so, when its turn comes. -/
def RunSafe (s : WaitState) : List LockCall → Prop
  | [] => True
  | call :: calls => s.CallSafe call ∧ (s.step call).RunSafe calls

/-- Whoever waits is older than all that it waits for. -/
def Ordered (s : WaitState) : Prop :=
  LockInv s.mgr ∧ ∀ r ∈ s.waiting, ∀ h ∈ s.mgr.holders r.key, Conflicts r.txn r.mode h → r.txn < h.txn

variable {s : WaitState}

theorem step_mgr (s : WaitState) (call : LockCall) : (s.step call).mgr = s.mgr.after call := by
  cases call <;> rfl

theorem run_mgr (calls : List LockCall) : ∀ s : WaitState,
    (s.run calls).mgr = calls.foldl LockMgr.after s.mgr := by
  induction calls with
  | nil => exact fun _ => rfl
  | cons call calls ih => exact fun s => (ih (s.step call)).trans (by rw [s.step_mgr, foldl_cons])

theorem Ordered.acyclic (h : s.Ordered) : s.Acyclic := by
  intro txn hcycle
  have hlt : ∀ {a b}, Relation.TransGen s.WaitsFor a b → a < b := by
    intro a b hab
    induction hab with
    | single hstep =>
      obtain ⟨r, hr, rfl, g, hg, rfl, hc⟩ := hstep
      exact h.2 r hr g hg hc
    | tail _ hstep ih =>
      obtain ⟨r, hr, rfl, g, hg, rfl, hc⟩ := hstep
      exact UInt64.lt_trans ih (h.2 r hr g hg hc)
  exact UInt64.lt_irrefl txn (hlt hcycle)

/-- What one request adds to the holders in conflict with a waiter: nothing, or its own entry. -/
theorem conflict_after {hs : List Holder} (hok : HoldersOk hs) {txn : UInt64} {mode : LockMode} {h : Holder}
    (hh : h ∈ (acquireOn hs txn mode).2) {waiter : UInt64} {wmode : LockMode}
    (hc : Conflicts waiter wmode h) :
    (∃ h' ∈ hs, h'.txn = h.txn ∧ Conflicts waiter wmode h') ∨
      (acquireOn hs txn mode).1 = .ok ∧ h.txn = txn ∧ modeConflict wmode mode = true := by
  have hcase := acquireOn_cases hs txn mode
  generalize acquireOn hs txn mode = out at hh hcase ⊢
  cases hcase with
  | upgraded self hself htxn hmode halone =>
    subst htxn hmode
    obtain rfl := eq_singleton_of_alone hok.once hself halone
    rw [upgradeSelf_singleton] at hh
    rw [mem_singleton.mp hh]
    exact .inr ⟨rfl, rfl, by simp [modeConflict]⟩
  | granted hnew hfree =>
    rcases mem_cons.mp hh with rfl | hh
    · exact .inr ⟨rfl, rfl, hc.2⟩
    · exact .inl ⟨h, hh, rfl, hc⟩
  | _ => exact .inl ⟨h, hh, rfl, hc⟩

theorem Ordered.step (h : s.Ordered) {call : LockCall} (hsafe : s.CallSafe call) :
    (s.step call).Ordered := by
  obtain ⟨hinv, hord⟩ := h
  refine ⟨s.step_mgr call ▸ hinv.after call, ?_⟩
  cases call with
  | acquire txn k mode =>
    obtain ⟨hfirst, hgrant⟩ := hsafe
    -- the others wait as before, and for the new holder
    have hothers : ∀ r ∈ s.waiting.filter (fun r => r.txn ≠ txn),
        ∀ g ∈ (lockAcquire s.mgr txn k mode).2.holders r.key, Conflicts r.txn r.mode g →
          r.txn < g.txn := by
      intro r hr g hg hc
      obtain ⟨hr, hne⟩ := mem_filter.mp hr
      rw [holders_acquire] at hg
      by_cases hk : r.key = k
      · rw [if_pos hk] at hg
        rcases conflict_after (hinv.holders k) hg hc with ⟨g', hg', htxn, hc'⟩ | ⟨hok, htxn, hmode⟩
        · exact htxn ▸ hord r hr g' (hk ▸ hg') hc'
        · rw [← status_acquire] at hok
          exact htxn ▸ hgrant hok r hr (by simpa using hne) hk hmode
      · rw [if_neg hk] at hg
        exact hord r hr g hg hc
    intro r hr
    simp only [WaitState.step] at hr ⊢
    split at hr
    · rename_i hbusy
      rcases mem_cons.mp hr with rfl | hr
      · -- the new waiter is older than all, since the first holder decides
        intro g hg hc
        have hsame := hinv.refused txn k mode (by rw [hbusy]; decide) k
        exact (busyIsOlder_iff hinv txn k mode).mpr hfirst hbusy g (hsame ▸ hg) hc
      · exact hothers r hr
    · exact hothers r hr
  | releaseAll txn =>
    intro r hr g hg hc
    replace hg : g ∈ (lockReleaseAll s.mgr txn).holders r.key := hg
    rw [holders_releaseAll] at hg
    exact hord r (mem_of_mem_filter hr) g (mem_of_mem_filter hg) hc

theorem Ordered.run (calls : List LockCall) : ∀ {s : WaitState}, s.Ordered → s.RunSafe calls →
    (s.run calls).Ordered := by
  induction calls with
  | nil => exact fun h _ => h
  | cons call calls ih => exact fun h hsafe => ih (h.step hsafe.1) hsafe.2

theorem RunSafe.of_prefix {pre calls : List LockCall} : ∀ {s : WaitState}, s.RunSafe calls →
    pre <+: calls → s.RunSafe pre := by
  induction pre generalizing calls with
  | nil => exact fun _ _ => trivial
  | cons call pre ih =>
    intro s hsafe hpre
    obtain ⟨rest, rfl⟩ := hpre
    exact ⟨hsafe.1, ih hsafe.2 ⟨rest, rfl⟩⟩

end WaitState

theorem WaitState.ordered_new : WaitState.new.Ordered :=
  ⟨LockState.ok_new.1, fun _ hr => absurd hr not_mem_nil⟩

/-- **Wait-die.** After every sequence of calls, a request that is told to wait is older than all
holders in conflict with it exactly if the first of them in the list decides as all of them would.
In every state of a run whose calls are safe, nobody waits for itself. -/
theorem wait_die_iff (calls : List LockCall) :
    (∀ txn k mode, BusyIsOlder (WaitState.new.run calls).mgr txn k mode ↔
      FirstDecides ((WaitState.new.run calls).mgr.holders k) txn mode) ∧
    (WaitState.new.RunSafe calls → ∀ pre, pre <+: calls → (WaitState.new.run pre).Acyclic) := by
  have hinv : LockInv (WaitState.new.run calls).mgr := by
    rw [WaitState.run_mgr]
    exact LockInv.run calls LockState.ok_new.1
  refine ⟨fun txn k mode => busyIsOlder_iff hinv txn k mode, fun hsafe pre hpre => ?_⟩
  exact (WaitState.ordered_new.run pre (hsafe.of_prefix hpre)).acyclic

/-- Two tables. -/
def tableA : ResKey := ⟨.table, 1, 0⟩

def tableB : ResKey := ⟨.table, 2, 0⟩

/-- An older transaction waits for a younger one. -/
theorem wait_die_two :
    (WaitState.new.run [.acquire 2 tableA .excl, .acquire 1 tableA .shared]).waiting =
        [⟨1, tableA, .shared⟩] ∧
      (WaitState.new.run [.acquire 2 tableA .excl, .acquire 1 tableA .shared]).Acyclic := by
  refine ⟨by decide +kernel, (wait_die_iff [.acquire 2 tableA .excl, .acquire 1 tableA .shared]).2
    ⟨⟨?_, ?_⟩, ⟨?_, ?_⟩, trivial⟩ _ (List.prefix_refl _)⟩
  · intro h hfirst
    cases hfirst
  · exact fun _ r hr => absurd hr not_mem_nil
  · have hholders : ((WaitState.new.step (.acquire 2 tableA .excl)).mgr.holders tableA) = [⟨2, .excl⟩] := by
      decide +kernel
    rw [hholders]
    intro h hfirst hlt h' hh' _
    rw [mem_singleton.mp hh']
    decide
  · intro hok
    exact absurd hok (by decide +kernel)

/-- **A deadlock.** Transaction 3 waits for `A`, which 5 and 1 share, since 5 is first in the list;
transaction 1 waits for `B`, which 3 has. -/
theorem wait_die_cycle :
    let s := WaitState.new.run [.acquire 1 tableA .shared, .acquire 5 tableA .shared,
      .acquire 3 tableB .excl, .acquire 3 tableA .excl, .acquire 1 tableB .excl]
    s.mgr.holders tableA = [⟨5, .shared⟩, ⟨1, .shared⟩] ∧
    (lockAcquire s.mgr 3 tableA .excl).1 = .busy ∧ ¬ BusyIsOlder s.mgr 3 tableA .excl ∧
    s.WaitsFor 3 1 ∧ s.WaitsFor 1 3 := by
  intro s
  have hA : s.mgr.holders tableA = [⟨5, .shared⟩, ⟨1, .shared⟩] := by decide +kernel
  have hB : s.mgr.holders tableB = [⟨3, .excl⟩] := by decide +kernel
  have hbusy : (lockAcquire s.mgr 3 tableA .excl).1 = .busy := by decide +kernel
  have hwait : s.waiting = [⟨1, tableB, .excl⟩, ⟨3, tableA, .excl⟩] := by decide +kernel
  refine ⟨hA, hbusy, fun h => ?_, ?_, ?_⟩
  · have hlt := h hbusy ⟨1, .shared⟩ (by rw [hA]; decide) (by decide)
    exact absurd hlt (by decide)
  · exact ⟨⟨3, tableA, .excl⟩, by rw [hwait]; decide, rfl, ⟨1, .shared⟩, by rw [hA]; decide, rfl, by decide⟩
  · exact ⟨⟨1, tableB, .excl⟩, by rw [hwait]; decide, rfl, ⟨3, .excl⟩, by rw [hB]; decide, rfl, by decide⟩

end Tdb
