import TransactionDB.Engine.Chains
import TransactionDB.Txn.Visibility

/-!
# TransactionDB — snapshots of a table, with one writer at a time

A table between transactions of one manager. The pages are shared: every transaction reads the
table as the writer has left it so far (`cur`); a rollback of the writer takes it back to how it
was last committed (`stable`). Writers run one after the other, readers come and go at any time.

`DbStep` is one step of such a history. Beside the state it records, for every live transaction,
what had been committed when its snapshot was taken, how many of the writers that is, and its own
changes. Read as chains, a history is one of `Versions.Serial` (`DbStep.simulates`). From that, a
transaction reads exactly the database that the writers before its snapshot have made, with its
own changes.
-/

namespace Tdb

open Versions List

abbrev RowChange := Change UInt64 Bytes

abbrev RowWriter := Writer UInt64 UInt64 Bytes

/-- The change of a table by the engine. -/
def runChange (txn : UInt64) (tab : Table) : RowChange → Status × Table
  | .insert r rec => engInsert txn tab r rec
  | .update r rec => engUpdate txn tab r rec
  | .remove r => engRemove txn tab r

/-- A live transaction, with the number of writers committed before its snapshot and its own
changes. -/
structure Client extends LiveTxn where
  seen : Nat
  own : List RowChange

structure DbState where
  mgr : TxnMgr
  cur : Table
  stable : Table
  live : List Client
  /-- The ids committed so far. -/
  com : UInt64 → Prop
  /-- The writers committed so far. -/
  log : List RowWriter

/-- A new table in a session over pager `p`. -/
def DbState.init (p : Pager) : DbState :=
  ⟨txnmgrOpen p, .empty, .empty, [], fun x => x ≠ 0 ∧ x ≤ p.hdr.maxTxnid, []⟩

/-- No writer is at work. -/
def DbState.Idle (s : DbState) : Prop := ∀ l ∈ s.live, l.txn.writable = false

/-- A rule for the row ids that rows are inserted with. -/
abbrev InsertRule := TxnMgr → Txn → Table → UInt64 → Prop

/-- Rows get the next row id; these have not run out. -/
def nextRowid : InsertRule := fun _ _ tab r =>
  r = engNextRowid tab ∧ (maxRowid tab.main).toNat + 1 < 2 ^ 64

/-- Rows get any row id that the writer sees no row with. -/
def unusedRowid : InsertRule := fun m t tab r => engSeekRowid m t tab r = (.ok, none)

/-- Rows are changed and removed only where the writer sees one. -/
def Admissible (rule : InsertRule) (m : TxnMgr) (t : Txn) (tab : Table) : RowChange → Prop
  | .insert r _ => rule m t tab r
  | .update r _ => ∃ rec, engSeekRowid m t tab r = (.ok, some rec)
  | .remove r => ∃ rec, engSeekRowid m t tab r = (.ok, some rec)

/-- One step. The 64-bit counters never run out. -/
inductive DbStep (c : Codec) (rule : InsertRule) : DbState → DbState → Prop where
  /-- A writer begins only when there is none. -/
  | begin (s : DbState) (iso : Isolation) (writable : Bool) (m' : TxnMgr) (t : Txn)
      (hid : s.mgr.next.toNat + 1 < 2 ^ 64) (hserial : writable = true → s.Idle)
      (hbegin : txnBegin c s.mgr iso writable = (.ok, m', some t)) :
      DbStep c rule s { s with mgr := m', live := s.live ++ [⟨⟨t, s.com⟩, s.log.length, []⟩] }
  /-- The writer changes a row, with whatever that does to the pages. -/
  | change (s : DbState) (ls rs : List Client) (l : Client) (ch : RowChange) (p : Pager) (tab : Table)
      (hlive : s.live = ls ++ l :: rs) (hw : l.txn.writable = true)
      (hadm : Admissible rule s.mgr l.txn s.cur ch)
      (hroom : (maxRowid s.cur.hist).toNat + 1 < 2 ^ 64)
      (hrun : runChange l.txn.id s.cur ch = (.ok, tab)) :
      DbStep c rule s { s with mgr := { s.mgr with pager := p }, cur := tab,
                               live := ls ++ { l with own := l.own ++ [ch] } :: rs }
  | commit (s : DbState) (ls rs : List Client) (l : Client) (m' : TxnMgr)
      (hlive : s.live = ls ++ l :: rs) (hw : l.txn.writable = true)
      (hcommit : txnCommit c s.mgr l.txn = (.ok, m')) :
      DbStep c rule s ⟨m', s.cur, s.cur, ls ++ rs, fun x => s.com x ∨ x = l.txn.id,
        s.log ++ [(l.txn.id, l.own)]⟩
  | rollback (s : DbState) (ls rs : List Client) (l : Client) (rc : Status) (m' : TxnMgr)
      (hlive : s.live = ls ++ l :: rs) (hw : l.txn.writable = true)
      (hroll : txnRollback c s.mgr l.txn = (rc, m')) :
      DbStep c rule s { s with mgr := m', cur := s.stable, live := ls ++ rs }
  /-- A reader ends, one way or the other. -/
  | commitReader (s : DbState) (ls rs : List Client) (l : Client) (m' : TxnMgr)
      (hlive : s.live = ls ++ l :: rs) (hw : l.txn.writable = false)
      (hcommit : txnCommit c s.mgr l.txn = (.ok, m')) :
      DbStep c rule s { s with mgr := m', live := ls ++ rs, com := fun x => s.com x ∨ x = l.txn.id }
  | rollbackReader (s : DbState) (ls rs : List Client) (l : Client) (rc : Status) (m' : TxnMgr)
      (hlive : s.live = ls ++ l :: rs) (hw : l.txn.writable = false)
      (hroll : txnRollback c s.mgr l.txn = (rc, m')) :
      DbStep c rule s { s with mgr := m', live := ls ++ rs }
  | refresh (s : DbState) (ls rs : List Client) (l : Client) (hlive : s.live = ls ++ l :: rs) :
      DbStep c rule s { s with live := ls ++
        { l with txn := txnRefreshSnapshot s.mgr l.txn, before := s.com, seen := s.log.length } :: rs }

/-- The histories from a new table on. -/
def DbRun (c : Codec) (rule : InsertRule) (p : Pager) : DbState → Prop :=
  Relation.ReflTransGen (DbStep c rule) (DbState.init p)

/-! ## Running a history

The steps of the transaction that began last, as a function. -/

instance (s : DbState) : Decidable s.Idle :=
  inferInstanceAs (Decidable (∀ l ∈ s.live, l.txn.writable = false))

instance (m : TxnMgr) (t : Txn) (tab : Table) (r : UInt64) : Decidable (nextRowid m t tab r) :=
  inferInstanceAs (Decidable (_ ∧ _))

instance (m : TxnMgr) (t : Txn) (tab : Table) (r : UInt64) : Decidable (unusedRowid m t tab r) :=
  inferInstanceAs (Decidable (_ = _))

inductive DbCmd where
  | begin (writable : Bool)
  | change (ch : RowChange)
  | commit

section Exec

variable (c : Codec) (rule : InsertRule) [∀ m t tab r, Decidable (rule m t tab r)]

instance (m : TxnMgr) (t : Txn) (tab : Table) (ch : RowChange) :
    Decidable (Admissible rule m t tab ch) :=
  have hsome : ∀ r, (∃ rec, engSeekRowid m t tab r = (.ok, some rec)) ↔
      (engSeekRowid m t tab r).1 = .ok ∧ (engSeekRowid m t tab r).2.isSome = true := fun r => by
    rw [Option.isSome_iff_exists]
    exact ⟨fun ⟨rec, h⟩ => ⟨by rw [h], rec, by rw [h]⟩, fun ⟨h, rec, h'⟩ => ⟨rec, Prod.ext h h'⟩⟩
  match ch with
  | .insert r _ => inferInstanceAs (Decidable (rule m t tab r))
  | .update r _ => decidable_of_iff' _ (hsome r)
  | .remove r => decidable_of_iff' _ (hsome r)

/-- The next state, if there is such a step. -/
def DbState.exec (s : DbState) : DbCmd → Option DbState
  | .begin writable =>
    match txnBegin c s.mgr .snapshot writable with
    | (.ok, m', some t) =>
      if s.mgr.next.toNat + 1 < 2 ^ 64 ∧ (writable = true → s.Idle) then
        some { s with mgr := m', live := s.live ++ [⟨⟨t, s.com⟩, s.log.length, []⟩] }
      else none
    | _ => none
  | .change ch =>
    match s.live.getLast? with
    | none => none
    | some l =>
      match runChange l.txn.id s.cur ch with
      | (.ok, tab) =>
        if l.txn.writable = true ∧ Admissible rule s.mgr l.txn s.cur ch ∧
            (maxRowid s.cur.hist).toNat + 1 < 2 ^ 64 then
          some { s with cur := tab, live := s.live.dropLast ++ [{ l with own := l.own ++ [ch] }] }
        else none
      | _ => none
  | .commit =>
    match s.live.getLast? with
    | none => none
    | some l =>
      match txnCommit c s.mgr l.txn with
      | (.ok, m') =>
        if l.txn.writable = true then
          some ⟨m', s.cur, s.cur, s.live.dropLast, fun x => s.com x ∨ x = l.txn.id,
            s.log ++ [(l.txn.id, l.own)]⟩
        else none
      | _ => none

variable {c rule} {s s' : DbState}

theorem DbState.exec_step {cmd : DbCmd} (h : s.exec c rule cmd = some s') : DbStep c rule s s' := by
  have hlast : ∀ l, s.live.getLast? = some l → s.live = s.live.dropLast ++ l :: [] :=
    fun l hl => (dropLast_append_getLast? l hl).symm
  cases cmd with
  | begin writable =>
    simp only [DbState.exec] at h
    split at h
    · rename_i m' t hbegin
      split at h
      · rename_i hok
        cases h
        exact .begin s .snapshot writable m' t hok.1 hok.2 hbegin
      · cases h
    · cases h
  | change ch =>
    simp only [DbState.exec] at h
    split at h
    · cases h
    · rename_i l hl
      split at h
      · rename_i tab hrun
        split at h
        · rename_i hok
          cases h
          exact .change s _ [] l ch s.mgr.pager tab (hlast l hl) hok.1 hok.2.1 hok.2.2 hrun
        · cases h
      · cases h
  | commit =>
    simp only [DbState.exec] at h
    split at h
    · cases h
    · rename_i l hl
      split at h
      · rename_i m' hcommit
        split at h
        · rename_i hw
          cases h
          have hstep : DbStep c rule s _ := .commit s _ [] l m' (hlast l hl) hw hcommit
          rwa [append_nil] at hstep
        · cases h
      · cases h

/-- A writer from begin to commit. -/
def DbCmd.writer (chs : List RowChange) : List DbCmd := .begin true :: chs.map .change ++ [.commit]

/-- A list of commands is a history. -/
theorem DbState.exec_run {cmds : List DbCmd} (h : cmds.foldlM (DbState.exec c rule) s = some s') :
    Relation.ReflTransGen (DbStep c rule) s s' := by
  induction cmds generalizing s with
  | nil =>
    cases h
    exact .refl
  | cons cmd cmds ih =>
    rw [foldlM_cons] at h
    obtain ⟨s1, hfirst, hrest⟩ := Option.bind_eq_some_iff.mp h
    exact (ih hrest).head (DbState.exec_step hfirst)

/-- The changes and the commit of the transaction that began last leave the others. -/
theorem DbState.exec_changes_live {chs : List RowChange} {ls : List Client} {l : Client}
    (hlive : s.live = ls ++ [l])
    (h : (chs.map DbCmd.change ++ [DbCmd.commit]).foldlM (DbState.exec c rule) s = some s') :
    s'.live = ls := by
  induction chs generalizing s l with
  | nil =>
    simp only [map_nil, nil_append, foldlM_cons, foldlM_nil, DbState.exec, hlive,
      getLast?_concat, dropLast_concat, bind_pure] at h
    split at h
    · split at h
      · cases h
        rfl
      · cases h
    · cases h
  | cons ch chs ih =>
    rw [map_cons, cons_append, foldlM_cons] at h
    obtain ⟨s1, hfirst, hrest⟩ := Option.bind_eq_some_iff.mp h
    simp only [DbState.exec, hlive, getLast?_concat, dropLast_concat] at hfirst
    split at hfirst
    · split at hfirst
      · cases hfirst
        exact ih rfl hrest
      · cases hfirst
    · cases hfirst

theorem DbState.exec_writer_live {chs : List RowChange}
    (h : (DbCmd.writer chs).foldlM (DbState.exec c rule) s = some s') : s'.live = s.live := by
  rw [DbCmd.writer, cons_append, foldlM_cons] at h
  obtain ⟨s1, hfirst, hrest⟩ := Option.bind_eq_some_iff.mp h
  simp only [DbState.exec] at hfirst
  split at hfirst
  · split at hfirst
    · cases hfirst
      exact DbState.exec_changes_live rfl hrest
    · cases hfirst
  · cases hfirst

end Exec

/-! ## The simulation -/

/-- A history of chains that the state stands for. -/
structure DbRel (s : DbState) (a : Serial UInt64 UInt64 Bytes) : Prop where
  mgr : MgrInv s.mgr (s.live.map Client.toLiveTxn) s.com
  cur : TableRep s.cur a.cur
  stable : TableRep s.stable a.stable
  log : a.log = s.log
  /-- The writer of the chains is the one writable transaction. -/
  writer : ∀ l ∈ s.live, l.txn.writable = true → a.writer = some (l.txn.id, l.own) ∧
    l.seen = s.log.length
  idle : s.Idle → a.writer = none
  reader : ∀ l ∈ s.live, l.txn.writable = false → l.own = []
  committed : ∀ x ∈ s.log.map Prod.fst, s.com x
  seen : ∀ l ∈ s.live, l.seen ≤ s.log.length ∧
    ∀ x ∈ s.log.map Prod.fst, l.before x ↔ x ∈ (s.log.take l.seen).map Prod.fst

section Manager

variable {m : TxnMgr} {live : List LiveTxn} {com : UInt64 → Prop} {l : LiveTxn}

/-- A live transaction sees what had been committed before its snapshot, and itself. -/
theorem MgrInv.sees_iff (h : MgrInv m live com) (hl : l ∈ live) (x : UInt64) :
    txnSees m l.txn x = true ↔ x = l.txn.id ∨ l.before x := by
  have hsnap := h.snaps l hl
  unfold txnSees
  by_cases hx : x = l.txn.snap.self
  · rw [hx, xidVisible_self, hsnap.self]
    simp
  · rw [xidVisible_iff hx, ← h.com_iff, ← hsnap.before]
    rw [hsnap.self] at hx
    simp [hx]

end Manager

section Simulation

variable {c : Codec} {rule : InsertRule} {P : Chains UInt64 UInt64 Bytes → UInt64 → Prop}
  {s s' : DbState} {a : Serial UInt64 UInt64 Bytes} {l : Client}

theorem dbRel_init {p : Pager} (hmax : p.hdr.maxTxnid.toNat + 1 < 2 ^ 64) :
    DbRel (DbState.init p) Serial.empty := by
  refine ⟨mgrInv_opened hmax, tableRep_empty, tableRep_empty, rfl, ?_, fun _ => rfl, ?_, ?_, ?_⟩
  · exact fun l hl => absurd hl not_mem_nil
  · exact fun l hl => absurd hl not_mem_nil
  · exact fun x hx => absurd hx not_mem_nil
  · exact fun l hl => absurd hl not_mem_nil

section

variable (h : DbRel s a) (hl : l ∈ s.live)

include h hl

theorem DbRel.sees_iff (x : UInt64) :
    txnSees s.mgr l.txn x = true ↔ x = l.txn.id ∨ l.before x :=
  h.mgr.sees_iff (mem_map_of_mem hl) x

/-- The writer sees every transaction that the chains mention. -/
theorem DbRel.writer_sees (hw : l.txn.writable = true) :
    ∀ x ∈ a.all.map Prod.fst, txnSees s.mgr l.txn x = true := by
  intro x hx
  obtain ⟨hwriter, hseen⟩ := h.writer l hl hw
  rw [Serial.all_of_writer hwriter, h.log, map_append] at hx
  rw [h.sees_iff hl]
  rcases mem_append.mp hx with hx | hx
  · refine Or.inr (((h.seen l hl).2 x hx).mpr ?_)
    rw [hseen, take_length]
    exact hx
  · exact Or.inl (by simpa using hx)

/-- What the writer finds is the newest version. -/
theorem DbRel.writer_seek (hinv : a.Inv) (hw : l.txn.writable = true) (r : UInt64) :
    engSeekRowid s.mgr l.txn s.cur r = (.ok, current a.cur r) := by
  rw [h.cur.seek, hinv.cur_sound.lookup_all (h.writer_sees hl hw)]

end

/-- A rule for row ids, as one on chains: the writer sees no row there. -/
def RuleOn (rule : InsertRule) (P : Chains UInt64 UInt64 Bytes → UInt64 → Prop) : Prop :=
  ∀ m t tab cs r, TableRep tab cs → rule m t tab r → lookup (txnSees m t) (cs r) = none ∧ P cs r

theorem nextRowid_on : RuleOn nextRowid (fun cs r => cs r = []) := by
  rintro m t tab cs r h ⟨rfl, hroom⟩
  have hnone : cs (engNextRowid tab) = [] := h.absent _ (maxRowid_succ_fresh hroom).1
  exact ⟨by rw [hnone]; rfl, hnone⟩

theorem unusedRowid_on : RuleOn unusedRowid (fun _ _ => True) := by
  intro m t tab cs r h hrule
  rw [unusedRowid, h.seek] at hrule
  exact ⟨congrArg Prod.snd hrule, trivial⟩

/-- A change of the table is the change of its chains. -/
theorem runChange_rep {tab tab' : Table} {cs : Chains UInt64 UInt64 Bytes} {txn : UInt64}
    {ch : RowChange} (h : TableRep tab cs) (htxn : txn ≠ 0)
    (hroom : (maxRowid tab.hist).toNat + 1 < 2 ^ 64) (hrun : runChange txn tab ch = (.ok, tab')) :
    TableRep tab' (ch.store txn cs) := by
  cases ch with
  | insert r rec =>
    have hrep := h.insert txn r rec
    rw [show engInsert txn tab r rec = (.ok, tab') from hrun] at hrep
    exact hrep
  | update r rec =>
    have hrep := (h.update htxn hroom r rec).2
    rw [show engUpdate txn tab r rec = (.ok, tab') from hrun] at hrep
    exact hrep
  | remove r =>
    have hrep := (h.remove htxn r).2
    rw [show engRemove txn tab r = (.ok, tab') from hrun] at hrep
    exact hrep

/-- An admissible change fits the newest versions. -/
theorem DbRel.fits (h : DbRel s a) (hinv : a.Inv) (hrule : RuleOn rule P) (hl : l ∈ s.live)
    (hw : l.txn.writable = true) {ch : RowChange} (hadm : Admissible rule s.mgr l.txn s.cur ch) :
    ch.Fits (current a.cur) ∧ ∀ r, ch.inserts r → P a.cur r := by
  cases ch with
  | insert r rec =>
    obtain ⟨hnone, hP⟩ := hrule _ _ _ _ _ h.cur hadm
    rw [hinv.cur_sound.lookup_all (h.writer_sees hl hw)] at hnone
    exact ⟨hnone, fun r' hr => by rw [show r' = r from hr]; exact hP⟩
  | update r rec | remove r =>
    obtain ⟨old, hold⟩ := hadm
    rw [h.writer_seek hl hinv hw] at hold
    have hold : current a.cur r = some old := congrArg Prod.snd hold
    exact ⟨by simp [Change.Fits, hold], fun _ hr => hr.elim⟩

/-! ### One lemma per step -/

theorem DbRel.ids_lt (h : DbRel s a) {x : UInt64} (hx : x ∈ a.log.map Prod.fst) : x < s.mgr.next := by
  rw [h.log] at hx
  exact h.mgr.com_lt x (h.committed x hx)

variable {ls rs : List Client}

/-- Besides the writer there are only readers. -/
theorem DbRel.others_read (h : DbRel s a) (hlive : s.live = ls ++ l :: rs)
    (hw : l.txn.writable = true) : ∀ u ∈ ls ++ rs, u.txn.writable = false := by
  intro u hu
  by_contra huw
  have hul : u ∈ s.live := by
    rw [hlive]
    simp only [mem_append, mem_cons] at hu ⊢
    tauto
  have hl : l ∈ s.live := by simp [hlive]
  have hboth := (h.writer u hul (by simpa using huw)).1.symm.trans (h.writer l hl hw).1
  -- two transactions with one id
  have hids := h.mgr.ids
  rw [hlive, map_map, (perm_middle.map _).nodup_iff, map_cons, nodup_cons] at hids
  exact hids.1 (mem_map.mpr ⟨u, hu, congrArg Prod.fst (Option.some.inj hboth)⟩)

/-- The ids of live transactions are not in the log. -/
theorem DbRel.not_logged (h : DbRel s a) (hl : l ∈ s.live) : l.txn.id ∉ s.log.map Prod.fst :=
  fun hx => (h.mgr.live_ids _ (mem_map_of_mem hl)).2.2 (h.committed _ hx)

theorem DbRel.begin (h : DbRel s a) {iso : Isolation} {writable : Bool} {m' : TxnMgr} {t : Txn}
    (hid : s.mgr.next.toNat + 1 < 2 ^ 64) (hserial : writable = true → s.Idle)
    (hbegin : txnBegin c s.mgr iso writable = (.ok, m', some t)) :
    ∃ a', (a' = a ∨ Serial.Step P a a') ∧
      DbRel { s with mgr := m', live := s.live ++ [⟨⟨t, s.com⟩, s.log.length, []⟩] } a' := by
  obtain ⟨htid, htw, -⟩ := txnBegin_ok_inv hbegin
  have hmgr := h.mgr.begin hid hbegin
  set new : Client := ⟨⟨t, s.com⟩, s.log.length, []⟩ with hnew
  have hmap : (s.live ++ [new]).map Client.toLiveTxn
      = s.live.map Client.toLiveTxn ++ [⟨t, s.com⟩] := by simp [hnew]
  have hmem : ∀ u ∈ s.live ++ [new], u ∈ s.live ∨ u = new := by
    intro u hu
    simpa using hu
  have hreader : ∀ u ∈ s.live ++ [new], u.txn.writable = false → u.own = [] := by
    intro u hu huw
    rcases hmem u hu with hu | rfl
    · exact h.reader u hu huw
    · rfl
  have hseen : ∀ u ∈ s.live ++ [new], u.seen ≤ s.log.length ∧
      ∀ x ∈ s.log.map Prod.fst, u.before x ↔ x ∈ (s.log.take u.seen).map Prod.fst := by
    intro u hu
    rcases hmem u hu with hu | rfl
    · exact h.seen u hu
    · refine ⟨le_refl _, fun x hx => ?_⟩
      rw [take_length]
      exact ⟨fun _ => hx, fun _ => h.committed x hx⟩
  cases writable with
  | true =>
    have hidle := hserial rfl
    refine ⟨{ a with writer := some (t.id, []) }, Or.inr (.begin a t.id (h.idle hidle) ?_), ?_⟩
    · intro hx
      have hlt := h.ids_lt hx
      rw [htid] at hlt
      exact UInt64.lt_irrefl _ hlt
    · refine ⟨by rw [hmap]; exact hmgr, h.cur, h.stable, h.log, fun u hu huw => ?_, fun hall => ?_,
        hreader, h.committed, hseen⟩
      · rcases hmem u hu with hu | rfl
        · rw [hidle u hu] at huw
          cases huw
        · exact ⟨rfl, rfl⟩
      · have hfalse := hall new (by simp)
        rw [show new.txn.writable = true from htw] at hfalse
        cases hfalse
  | false =>
    refine ⟨a, Or.inl rfl, by rw [hmap]; exact hmgr, h.cur, h.stable, h.log, fun u hu huw => ?_,
      fun hall => h.idle (forall_mem_append.mp hall).1, hreader, h.committed, hseen⟩
    rcases hmem u hu with hu | rfl
    · exact h.writer u hu huw
    · rw [show new.txn.writable = false from htw] at huw
      cases huw

theorem DbRel.change (h : DbRel s a) (hinv : a.Inv) (hrule : RuleOn rule P) {ch : RowChange}
    {tab : Table} (p : Pager) (hlive : s.live = ls ++ l :: rs) (hw : l.txn.writable = true)
    (hadm : Admissible rule s.mgr l.txn s.cur ch) (hroom : (maxRowid s.cur.hist).toNat + 1 < 2 ^ 64)
    (hrun : runChange l.txn.id s.cur ch = (.ok, tab)) :
    ∃ a', Serial.Step P a a' ∧
      DbRel { s with mgr := { s.mgr with pager := p }, cur := tab,
                     live := ls ++ { l with own := l.own ++ [ch] } :: rs } a' := by
  have hl : l ∈ s.live := by simp [hlive]
  obtain ⟨hwriter, hseen⟩ := h.writer l hl hw
  obtain ⟨hfits, hins⟩ := h.fits hinv hrule hl hw hadm
  refine ⟨_, .change a l.txn.id l.own ch hwriter hfits hins, ?_⟩
  have hothers := h.others_read hlive hw
  set l' : Client := { l with own := l.own ++ [ch] } with hl'
  have hmap : (ls ++ l' :: rs).map Client.toLiveTxn = s.live.map Client.toLiveTxn := by
    simp [hlive, hl']
  have hmem : ∀ u ∈ ls ++ l' :: rs, u = l' ∨ (u ∈ ls ++ rs ∧ u ∈ s.live) := by
    intro u hu
    rw [hlive]
    simp only [mem_append, mem_cons] at hu ⊢
    tauto
  refine ⟨by rw [hmap]; exact h.mgr.pager p,
    runChange_rep h.cur (h.mgr.id_ne_zero (mem_map_of_mem hl)) hroom hrun, h.stable, h.log,
    fun u hu huw => ?_, fun hall => ?_, fun u hu huw => ?_, h.committed, fun u hu => ?_⟩
  · rcases hmem u hu with rfl | ⟨hu, -⟩
    · exact ⟨rfl, hseen⟩
    · rw [hothers u hu] at huw
      cases huw
  · have hfalse := hall l' (by simp)
    rw [show l'.txn.writable = true from hw] at hfalse
    cases hfalse
  · rcases hmem u hu with rfl | ⟨-, hu⟩
    · rw [show l'.txn.writable = true from hw] at huw
      cases huw
    · exact h.reader u hu huw
  · rcases hmem u hu with rfl | ⟨-, hu⟩
    · exact h.seen l hl
    · exact h.seen u hu

/-- The transactions that are left when one ends. -/
theorem mem_live_of_left (hlive : s.live = ls ++ l :: rs) {u : Client} (hu : u ∈ ls ++ rs) :
    u ∈ s.live := by
  rw [hlive]
  simp only [mem_append, mem_cons] at hu ⊢
  tauto

section

variable (h : DbRel s a)

include h

section

variable (hlive : s.live = ls ++ l :: rs)

include hlive

theorem DbRel.live_map : MgrInv s.mgr
    (ls.map Client.toLiveTxn ++ l.toLiveTxn :: rs.map Client.toLiveTxn) s.com := by
  have hmgr := h.mgr
  rwa [hlive, map_append, map_cons] at hmgr

theorem DbRel.commit {m' : TxnMgr} (hw : l.txn.writable = true)
    (hcommit : txnCommit c s.mgr l.txn = (.ok, m')) :
    ∃ a', Serial.Step P a a' ∧ DbRel ⟨m', s.cur, s.cur, ls ++ rs, fun x => s.com x ∨ x = l.txn.id,
      s.log ++ [(l.txn.id, l.own)]⟩ a' := by
  have hl : l ∈ s.live := by simp [hlive]
  obtain ⟨hwriter, hseen⟩ := h.writer l hl hw
  refine ⟨_, .commit a _ hwriter, ?_⟩
  have hothers := h.others_read hlive hw
  refine ⟨?_, h.cur, h.cur, by rw [h.log], fun u hu huw => ?_, fun _ => rfl,
    fun u hu => h.reader u (mem_live_of_left hlive hu), fun x hx => ?_, fun u hu => ?_⟩
  · rw [map_append]
    exact (h.live_map hlive).commit hcommit
  · rw [hothers u hu] at huw
    cases huw
  · rw [map_append] at hx
    rcases mem_append.mp hx with hx | hx
    · exact Or.inl (h.committed x hx)
    · exact Or.inr (by simpa using hx)
  · have hul := mem_live_of_left hlive hu
    obtain ⟨hle, hbefore⟩ := h.seen u hul
    refine ⟨by rw [length_append]; omega, fun x hx => ?_⟩
    rw [take_append_of_le_length hle]
    rw [map_append] at hx
    rcases mem_append.mp hx with hx | hx
    · exact hbefore x hx
    · -- the writer was still running when this snapshot was taken
      have hx : x = l.txn.id := by simpa using hx
      rw [hx]
      refine ⟨fun hb => ?_, fun hmem => ?_⟩
      · have hcom := ((h.mgr.snaps _ (mem_map_of_mem hul)).before _).mp hb
        exact absurd hcom.1 (h.mgr.live_ids _ (mem_map_of_mem hl)).2.2
      · rw [map_take] at hmem
        exact absurd (mem_of_mem_take hmem) (h.not_logged hl)

theorem DbRel.rollback {rc : Status} {m' : TxnMgr} (hw : l.txn.writable = true)
    (hroll : txnRollback c s.mgr l.txn = (rc, m')) :
    ∃ a', Serial.Step P a a' ∧ DbRel { s with mgr := m', cur := s.stable, live := ls ++ rs } a' := by
  have hl : l ∈ s.live := by simp [hlive]
  obtain ⟨hwriter, -⟩ := h.writer l hl hw
  refine ⟨_, .rollback a _ hwriter, ?_⟩
  have hothers := h.others_read hlive hw
  refine ⟨?_, h.stable, h.stable, h.log, fun u hu huw => ?_, fun _ => rfl,
    fun u hu => h.reader u (mem_live_of_left hlive hu), h.committed,
    fun u hu => h.seen u (mem_live_of_left hlive hu)⟩
  · rw [map_append]
    exact (h.live_map hlive).rollback hroll
  · rw [hothers u hu] at huw
    cases huw

/-- A reader ends; its id may count as committed from now on. -/
theorem DbRel.endReader {m' : TxnMgr} {com' : UInt64 → Prop} (hw : l.txn.writable = false)
    (hmgr : MgrInv m' (ls.map Client.toLiveTxn ++ rs.map Client.toLiveTxn) com')
    (hcom : ∀ x, s.com x → com' x) :
    DbRel { s with mgr := m', live := ls ++ rs, com := com' } a := by
  have hsub := fun u (hu : u ∈ ls ++ rs) => mem_live_of_left hlive hu
  refine ⟨by rw [map_append]; exact hmgr, h.cur, h.stable, h.log, fun u hu => h.writer u (hsub u hu),
    fun hall => h.idle fun u hu => ?_, fun u hu => h.reader u (hsub u hu),
    fun x hx => hcom x (h.committed x hx), fun u hu => h.seen u (hsub u hu)⟩
  rw [hlive] at hu
  simp only [mem_append, mem_cons] at hu
  rcases hu with hu | rfl | hu
  · exact hall u (mem_append_left _ hu)
  · exact hw
  · exact hall u (mem_append_right _ hu)

theorem DbRel.refresh :
    DbRel { s with live := ls ++ { l with txn := txnRefreshSnapshot s.mgr l.txn, before := s.com,
                                          seen := s.log.length } :: rs } a := by
  have hl : l ∈ s.live := by simp [hlive]
  set l' : Client := { l with txn := txnRefreshSnapshot s.mgr l.txn, before := s.com,
                              seen := s.log.length } with hl'
  have hmem : ∀ u ∈ ls ++ l' :: rs, u = l' ∨ u ∈ s.live := by
    intro u hu
    rw [hlive]
    simp only [mem_append, mem_cons] at hu ⊢
    tauto
  refine ⟨?_, h.cur, h.stable, h.log, fun u hu huw => ?_, fun hall => h.idle fun u hu => ?_,
    fun u hu huw => ?_, h.committed, fun u hu => ?_⟩
  · rw [map_append, map_cons]
    exact (h.live_map hlive).refresh
  · rcases hmem u hu with rfl | hu
    · exact ⟨(h.writer l hl huw).1, rfl⟩
    · exact h.writer u hu huw
  · rw [hlive] at hu
    simp only [mem_append, mem_cons] at hu
    rcases hu with hu | rfl | hu
    · exact hall u (mem_append_left _ hu)
    · exact hall l' (by simp)
    · exact hall u (mem_append_right _ (mem_cons_of_mem _ hu))
  · rcases hmem u hu with rfl | hu
    · exact h.reader l hl huw
    · exact h.reader u hu huw
  · rcases hmem u hu with rfl | hu
    · refine ⟨le_refl _, fun x hx => ?_⟩
      rw [take_length]
      exact ⟨fun _ => hx, fun _ => h.committed x hx⟩
    · exact h.seen u hu

end

/-- **Every step of a table is one of its chains**, or leaves them alone. -/
theorem DbStep.simulates (hinv : a.Inv) (hrule : RuleOn rule P) (hstep : DbStep c rule s s') :
    ∃ a', (a' = a ∨ Serial.Step P a a') ∧ DbRel s' a' := by
  cases hstep with
  | begin iso writable m' t hid hserial hbegin => exact h.begin hid hserial hbegin
  | change ls rs l ch p tab hlive hw hadm hroom hrun =>
    obtain ⟨a', hstep, hrel⟩ := h.change hinv hrule p hlive hw hadm hroom hrun
    exact ⟨a', Or.inr hstep, hrel⟩
  | commit ls rs l m' hlive hw hcommit =>
    obtain ⟨a', hstep, hrel⟩ := h.commit (P := P) hlive hw hcommit
    exact ⟨a', Or.inr hstep, hrel⟩
  | rollback ls rs l rc m' hlive hw hroll =>
    obtain ⟨a', hstep, hrel⟩ := h.rollback (P := P) hlive hw hroll
    exact ⟨a', Or.inr hstep, hrel⟩
  | commitReader ls rs l m' hlive hw hcommit =>
    exact ⟨a, Or.inl rfl, h.endReader hlive hw ((h.live_map hlive).commit hcommit)
      fun x hx => Or.inl hx⟩
  | rollbackReader ls rs l rc m' hlive hw hroll =>
    exact ⟨a, Or.inl rfl, h.endReader hlive hw ((h.live_map hlive).rollback hroll) fun x hx => hx⟩
  | refresh ls rs l hlive => exact ⟨a, Or.inl rfl, h.refresh hlive⟩

/-- **A history of a table is one of its chains.** -/
theorem DbRel.run (hinv : a.Inv) (hrule : RuleOn rule P)
    (hrun : Relation.ReflTransGen (DbStep c rule) s s') :
    ∃ a', Relation.ReflTransGen (Serial.Step P) a a' ∧ DbRel s' a' := by
  induction hrun with
  | refl => exact ⟨a, .refl, h⟩
  | tail _ hstep ih =>
    obtain ⟨a1, hrun1, hrel1⟩ := ih
    obtain ⟨a2, hstep2, hrel2⟩ := DbStep.simulates hrel1 (hinv.run hrun1) hrule hstep
    rcases hstep2 with rfl | hstep2
    · exact ⟨a2, hrun1, hrel2⟩
    · exact ⟨a2, hrun1.tail hstep2, hrel2⟩

end

end Simulation

/-! ## What a transaction reads -/

/-- A change of the rows themselves. -/
def onRows (db : RowMap) : RowChange → RowMap
  | .insert r rec => db.insert r rec
  | .update r rec => db.insert r rec
  | .remove r => db.erase r

/-- The database that the writers before the snapshot have made, one after the other, with the
transaction's own changes. -/
def Client.view (log : List RowWriter) (l : Client) : RowMap :=
  ((log.take l.seen).flatMap Prod.snd ++ l.own).foldl onRows ∅

theorem getElem?_onRows (db : RowMap) (ch : RowChange) (r : UInt64) :
    (onRows db ch)[r]? = ch.apply (fun r => db[r]?) r := by
  have hset : ∀ k rec, (db.insert k rec)[r]? = Function.update (fun r => db[r]?) k (some rec) r := by
    intro k rec
    rw [getElem?_insert_row, Function.update_apply]
  cases ch with
  | insert k rec | update k rec => exact hset k rec
  | remove k =>
    change (db.erase k)[r]? = Function.update (fun r => db[r]?) k none r
    rw [Std.ExtTreeMap.getElem?_erase, Function.update_apply]
    by_cases h : r = k
    · simp [h]
    · simp [h, Ne.symm h]

theorem getElem?_foldl_onRows (chs : List RowChange) (db : RowMap) (r : UInt64) :
    (chs.foldl onRows db)[r]? = chs.foldl Change.apply (fun r => db[r]?) r := by
  induction chs generalizing db with
  | nil => rfl
  | cons ch chs ih =>
    rw [foldl_cons, foldl_cons, ih, funext (getElem?_onRows db ch)]

/-- The view, as the replay of the writers and the transaction. -/
theorem Client.getElem?_view (log : List RowWriter) (l : Client) (r : UInt64) :
    (l.view log)[r]? = replay (log.take l.seen ++ [(l.txn.id, l.own)]) r := by
  rw [Client.view, getElem?_foldl_onRows, replay, flatMap_append, flatMap_singleton]
  simp

section Read

variable {c : Codec} {s : DbState} {a : Serial UInt64 UInt64 Bytes} {l : Client}

/-- The writer of the chains is live. -/
theorem DbRel.writer_live (h : DbRel s a) {w : RowWriter} (hwriter : a.writer = some w) :
    ∃ u ∈ s.live, u.txn.writable = true ∧ w = (u.txn.id, u.own) := by
  have hbusy : ¬ s.Idle := by
    intro hidle
    rw [h.idle hidle] at hwriter
    cases hwriter
  obtain ⟨u, hu, huw⟩ : ∃ u ∈ s.live, u.txn.writable = true := by
    simpa [DbState.Idle] using hbusy
  exact ⟨u, hu, huw, Option.some.inj (hwriter.symm.trans (h.writer u hu huw).1)⟩

section

variable (h : DbRel s a) (hl : l ∈ s.live)

include h hl

/-- No reader sees anything of the writer. -/
theorem DbRel.reader_blind (hw : l.txn.writable = false) {w : RowWriter} (hwriter : a.writer = some w) :
    w.1 ≠ l.txn.id ∧ ¬ l.before w.1 ∧ w.1 ∉ s.log.map Prod.fst := by
  obtain ⟨u, hu, huw, rfl⟩ := h.writer_live hwriter
  refine ⟨fun heq => ?_, fun hb => ?_, h.not_logged hu⟩
  · have hids := h.mgr.ids
    rw [map_map] at hids
    have hsame : u = l := inj_on_of_nodup_map hids hu hl heq
    rw [hsame, hw] at huw
    cases huw
  · have hcom := ((h.mgr.snaps _ (mem_map_of_mem hl)).before _).mp hb
    exact (h.mgr.live_ids _ (mem_map_of_mem hu)).2.2 hcom.1

/-- A reader sees the writers before its snapshot. -/
theorem DbRel.reader_sees (hw : l.txn.writable = false) :
    ∀ x ∈ a.all.map Prod.fst, txnSees s.mgr l.txn x = seesFirst s.log l.seen x := by
  intro x hx
  rw [Bool.eq_iff_iff, h.sees_iff hl, seesFirst, decide_eq_true_iff]
  rw [Serial.all, map_append] at hx
  rcases mem_append.mp hx with hx | hx
  · rw [h.log] at hx
    have hne : x ≠ l.txn.id := fun heq => h.not_logged hl (heq ▸ hx)
    simp only [hne, false_or]
    exact (h.seen l hl).2 x hx
  · obtain ⟨w, hmem, rfl⟩ := mem_map.mp hx
    obtain ⟨hne, hnot, hlog⟩ := h.reader_blind hl hw (Option.mem_toList.mp hmem)
    rw [map_take]
    exact iff_of_false (fun hor => hor.elim hne hnot) fun hin => hlog (mem_of_mem_take hin)

/-- The chains say to every live transaction what its view is. -/
theorem DbRel.read (hinv : a.Inv) (hpast : a.Past) (r : UInt64) :
    lookup (txnSees s.mgr l.txn) (a.cur r) = (l.view s.log)[r]? := by
  rw [l.getElem?_view]
  by_cases hw : l.txn.writable = true
  · obtain ⟨hwriter, hseen⟩ := h.writer l hl hw
    rw [hinv.read_own (h.writer_sees hl hw), Serial.all_of_writer hwriter, h.log, hseen,
      take_length]
  · -- a reader has no changes of its own
    have hw : l.txn.writable = false := by simpa using hw
    have hown : replay (s.log.take l.seen ++ [(l.txn.id, l.own)]) = replay (s.log.take l.seen) := by
      rw [h.reader l hl hw]
      simp [replay]
    rw [hown, ← h.log]
    refine hpast.read hinv (by rw [h.log]; exact (h.seen l hl).1) (fun x hx => ?_) r
    rw [h.reader_sees hl hw x hx, h.log]

end

/-- The chains of a history with new row ids only. -/
theorem DbRun.past {p : Pager} (hmax : p.hdr.maxTxnid.toNat + 1 < 2 ^ 64)
    (hrun : DbRun c nextRowid p s) :
    ∃ a : Serial UInt64 UInt64 Bytes, DbRel s a ∧ a.Inv ∧ a.Past := by
  obtain ⟨a, hsteps, hrel⟩ := (dbRel_init hmax).run Serial.inv_empty nextRowid_on hrun
  refine ⟨a, hrel, Serial.inv_empty.run hsteps, ?_⟩
  exact Serial.past_empty.run Serial.inv_empty hsteps

/-- **The row engine refines snapshot isolation**, when writers run one after the other. A scan
and a seek of a live transaction return exactly the rows of its view, a scan in the order of the
row ids. The walk over the versions of a row always ends. -/
theorem engine_snapshot_isolation {p : Pager} (hmax : p.hdr.maxTxnid.toNat + 1 < 2 ^ 64)
    (hrun : DbRun c nextRowid p s) :
    (∀ l ∈ s.live, engScan s.mgr l.txn s.cur 0 = (.ok, (l.view s.log).toList) ∧
      ((l.view s.log).toList).Pairwise (fun e e' => e.1 < e'.1) ∧
      ∀ r, engSeekRowid s.mgr l.txn s.cur r = (.ok, (l.view s.log)[r]?)) ∧
    ∀ (vis : UInt64 → UInt64 → Bool) (r : UInt64) (val : Bytes), s.cur.main[r]? = some val →
      (resolveVisible vis s.cur.hist (s.cur.hist.size + 1) val).1 = .ok := by
  obtain ⟨a, hrel, hinv, hpast⟩ := hrun.past hmax
  refine ⟨fun l hl => ⟨?_, ?_, fun r => ?_⟩, fun vis r val hget => hrel.cur.ends hget vis⟩
  · exact hrel.cur.scan (visBy_txn s.mgr l.txn) fun r => (hrel.read hl hinv hpast r).symm
  · exact toList_pairwise_lt _
  · rw [hrel.cur.seek, hrel.read hl hinv hpast r]

end Read

/-- A row is inserted and committed, a reader begins, a second writer begins and changes the
row. -/
def oneRowCmds : List DbCmd :=
  DbCmd.writer [.insert 1 [7]] ++ [.begin false, .begin true, .change (.update 1 [8])]

/-- The reader and the writer of `oneRowCmds`, each with its row. -/
theorem engine_snapshot_isolation_oneRow : ∃ s lr lw,
    DbRun Codec.identity nextRowid freshPager s ∧ s.live = [lr, lw] ∧
      engScan s.mgr lr.txn s.cur 0 = (.ok, [(1, [7])]) ∧
      engScan s.mgr lw.txn s.cur 0 = (.ok, [(1, [8])]) := by
  have hviews : (oneRowCmds.foldlM (DbState.exec Codec.identity nextRowid)
      (DbState.init freshPager)).map (fun s => s.live.map fun l => (l.view s.log).toList)
      = some [[(1, [7])], [(1, [8])]] := by decide +kernel
  obtain ⟨s, hexec, hlive⟩ := Option.map_eq_some_iff.mp hviews
  obtain ⟨lr, rest, hlive, hlr, hrest⟩ := map_eq_cons_iff.mp hlive
  obtain ⟨lw, rest, rfl, hlw, hrest⟩ := map_eq_cons_iff.mp hrest
  rw [map_eq_nil_iff.mp hrest] at hlive
  have hrun : DbRun Codec.identity nextRowid freshPager s := DbState.exec_run hexec
  have hread := (engine_snapshot_isolation (by decide) hrun).1
  refine ⟨s, lr, lw, hrun, hlive, ?_, ?_⟩
  · rw [(hread lr (by simp [hlive])).1, hlr]
  · rw [(hread lw (by simp [hlive])).1, hlw]

end Tdb
