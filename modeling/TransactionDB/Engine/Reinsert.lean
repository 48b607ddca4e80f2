import TransactionDB.Engine.Snapshot

/-!
# TransactionDB — rows inserted again

`eng_insert` replaces whatever is stored for the row id. A deleted row is stored until its row id
is used again, as the last version that older snapshots can read; a new insert drops it together
with the link into its history. So a reader from before the insert, and a scan
`FOR SYSTEM_TIME AS OF` a version from before it, lose exactly the rows that were inserted again.
-/

namespace Tdb

open Versions List

/-- A row is inserted in the writers committed after state `s`, or in the one at work. -/
def InsertedSince (s s' : DbState) (r : UInt64) : Prop :=
  Inserted (s'.log.drop s.log.length) r ∨ ∃ l ∈ s'.live, ∃ ch ∈ l.own, ch.inserts r

/-- The writers of later states are new. -/
structure Later (s s' : DbState) : Prop where
  next_le : s.mgr.next ≤ s'.mgr.next
  live : ∀ l ∈ s'.live, l.txn.writable = true → s.mgr.next ≤ l.txn.id
  log : ∀ x ∈ s'.log.map Prod.fst, x ∈ s.log.map Prod.fst ∨ s.mgr.next ≤ x

section Later

variable {c : Codec} {rule : InsertRule} {s s1 s2 s' : DbState}

theorem later_refl (hidle : s.Idle) : Later s s := by
  refine ⟨UInt64.le_refl _, fun l hl hw => ?_, fun x hx => Or.inl hx⟩
  rw [hidle l hl] at hw
  cases hw

theorem Later.step (h : Later s s1) (hstep : DbStep c rule s1 s2) : Later s s2 := by
  -- one client goes on with another state
  have hgoesOn : ∀ {ls rs : List Client} {l l' : Client}, s1.live = ls ++ l :: rs →
      (l'.txn.writable = true → s.mgr.next ≤ l'.txn.id) →
      ∀ u ∈ ls ++ l' :: rs, u.txn.writable = true → s.mgr.next ≤ u.txn.id := by
    intro ls rs l l' hlive hl' u hu huw
    simp only [mem_append, mem_cons] at hu
    rcases hu with hu | rfl | hu
    · exact h.live u (by simp [hlive, hu]) huw
    · exact hl' huw
    · exact h.live u (by simp [hlive, hu]) huw
  cases hstep with
  | begin iso writable m' t hid hserial hbegin =>
    obtain ⟨htid, -, -, hnext, -⟩ := txnBegin_ok_inv hbegin
    have hle : s1.mgr.next ≤ m'.next := by
      rw [hnext, UInt64.le_iff_toNat_le, UInt64.toNat_add]
      simp
      omega
    refine ⟨UInt64.le_trans h.next_le hle, fun l hl hw => ?_, h.log⟩
    rcases mem_append.mp hl with hl | hl
    · exact h.live l hl hw
    · rw [mem_singleton.mp hl]
      exact htid ▸ h.next_le
  | change ls rs l ch p tab hlive hw hadm hroom hrun | refresh ls rs l hlive =>
    exact ⟨h.next_le, hgoesOn hlive (h.live l (by simp [hlive])), h.log⟩
  | commit ls rs l m' hlive hw hcommit =>
    have hnext : s1.mgr.next = m'.next := congrArg (fun r => r.2.next) hcommit
    refine ⟨hnext ▸ h.next_le, fun u hu => h.live u (mem_live_of_left hlive hu), fun x hx => ?_⟩
    rw [map_append] at hx
    rcases mem_append.mp hx with hx | hx
    · exact h.log x hx
    · rw [show x = l.txn.id by simpa using hx]
      exact Or.inr (h.live l (by simp [hlive]) hw)
  | commitReader ls rs l m' hlive hw hleave | rollback ls rs l rc m' hlive hw hleave
  | rollbackReader ls rs l rc m' hlive hw hleave =>
    have hnext : s1.mgr.next = m'.next := congrArg (fun r => r.2.next) hleave
    exact ⟨hnext ▸ h.next_le, fun u hu => h.live u (mem_live_of_left hlive hu), h.log⟩

theorem later_run (hidle : s.Idle) (hrun : Relation.ReflTransGen (DbStep c rule) s s') :
    Later s s' := by
  induction hrun with
  | refl => exact later_refl hidle
  | tail _ hstep ih => exact ih.step hstep

end Later

/-! ## Who loses what -/

section Readers

variable {c : Codec} {rule : InsertRule} {P : Chains UInt64 UInt64 Bytes → UInt64 → Prop}
  {s s' : DbState} {a a' : Serial UInt64 UInt64 Bytes} {S : UInt64 → Bool}

/-- The writer at work is among the live transactions. -/
theorem DbRel.inserted_writer (h : DbRel s a) (r : UInt64) :
    Inserted a.writer.toList r ↔ ∃ l ∈ s.live, ∃ ch ∈ l.own, ch.inserts r := by
  constructor
  · rintro ⟨w, hw, ch, hch, hr⟩
    obtain ⟨u, hu, -, rfl⟩ := h.writer_live (Option.mem_toList.mp hw)
    exact ⟨u, hu, ch, hch, hr⟩
  · rintro ⟨l, hl, ch, hch, hr⟩
    have hw : l.txn.writable = true := by
      by_contra hno
      rw [h.reader l hl (by simpa using hno)] at hch
      exact not_mem_nil hch
    exact ⟨_, Option.mem_toList.mpr (h.writer l hl hw).1, ch, hch, hr⟩

section

variable (h : DbRel s a) (hinv : a.Inv) (hidle : s.Idle) (h' : DbRel s' a')
  (hrun : Relation.ReflTransGen (Serial.Step P) a a') (hS : ∀ x, S x = true → x ∈ s.log.map Prod.fst)

include h hinv hidle h' hrun hS

/-- The chains after the later writers, for a reader of the writers of state `s`. -/
theorem DbRel.left :
    (∀ r, lookup S (a'.cur r) = lookup S (a.cur r)) ↔
      ∀ r rec, lookup S (a.cur r) = some rec → ¬ InsertedSince s s' r := by
  obtain ⟨new, hlog, -, hleft⟩ := Serial.left_of_run hinv (h.idle hidle) (by rwa [h.log]) hrun
  rw [h.log, h'.log] at hlog
  have hsince : ∀ r, Inserted (new ++ a'.writer.toList) r ↔ InsertedSince s s' r := by
    intro r
    rw [InsertedSince, hlog, drop_left, ← h'.inserted_writer r]
    simp only [Inserted, mem_append, or_and_right, exists_or]
  simp only [hleft.same_iff, hsince]

/-- Scans of the two states, by tests that see the same of the writers of state `s` and nothing
of the later ones. -/
theorem DbRel.scan_iff {m m' : TxnMgr} {t t' : Txn} {asof : UInt64}
    (hold : ∀ x ∈ a.all.map Prod.fst, scanSees m t asof x = S x)
    (hnew : ∀ x ∈ a'.all.map Prod.fst, scanSees m' t' asof x = S x) :
    engScan m' t' s'.cur asof = engScan m t s.cur asof ↔
      ∀ row ∈ (engScan m t s.cur asof).2, ¬ InsertedSince s s' row.1 := by
  have hsame := hinv.cur_sound.lookup_congr hold
  have hsame' := (hinv.run hrun).cur_sound.lookup_congr hnew
  have hleft := h.left hinv hidle h' hrun hS
  unfold engScan
  rw [h'.cur.scan_eq_iff (visBy_scan m' t' asof) h.cur (visBy_scan m t asof)]
  simp only [hsame, hsame', hleft, Prod.forall, h.cur.mem_scan (visBy_scan m t asof)]

end

variable {l : Client} {asof : UInt64}

section

variable (h : DbRel s a) (hinv : a.Inv) (hidle : s.Idle) (h' : DbRel s' a')
  (hrun : Relation.ReflTransGen (Serial.Step P) a a')

include h hinv hidle h' hrun

/-- The later states keep the writers of the log. -/
theorem DbRel.log_append : ∃ new, s'.log = s.log ++ new := by
  obtain ⟨new, hlog, -⟩ := Serial.left_of_run (S := fun _ => false) hinv (h.idle hidle)
    (fun _ hx => by cases hx) hrun
  rw [h.log, h'.log] at hlog
  exact ⟨new, hlog⟩

/-- A reader that keeps its snapshot sees the same writers later. -/
theorem DbRel.reader_sees_later (hl : l ∈ s.live) (hl' : l ∈ s'.live) :
    ∀ x ∈ a'.all.map Prod.fst, txnSees s'.mgr l.txn x = seesFirst s.log l.seen x := by
  intro x hx
  obtain ⟨new, hlog⟩ := h.log_append hinv hidle h' hrun
  rw [h'.reader_sees hl' (hidle l hl) x hx, hlog, (seesFirst_append (h.seen l hl).1 new).1]

end

/-- The writers of the log that a version covers. -/
def loggedUpTo (s : DbState) (asof x : UInt64) : Bool :=
  decide (x ∈ s.log.map Prod.fst ∧ x ≤ asof)

theorem DbRel.asofSees_logged (h : DbRel s a) {x : UInt64} (hx : x ∈ s.log.map Prod.fst) :
    asofSees s.mgr asof x = decide (x ≤ asof) := by
  have hcom := (h.mgr.com_iff x).mp (h.committed x hx)
  simp [asofSees, hcom]

/-- A version of state `s` covers none of the later writers. -/
theorem DbRel.asofSees_later (h' : DbRel s' a') (hlater : Later s s') (hasof : asof < s.mgr.next) :
    ∀ x ∈ a'.all.map Prod.fst, asofSees s'.mgr asof x = loggedUpTo s asof x := by
  have hnew : ∀ {x : UInt64}, s.mgr.next ≤ x → ¬ x ≤ asof := fun hle hx =>
    UInt64.lt_irrefl _ (UInt64.lt_of_le_of_lt (UInt64.le_trans hle hx) hasof)
  intro x hx
  rw [Serial.all, map_append, h'.log] at hx
  rcases mem_append.mp hx with hx | hx
  · rw [h'.asofSees_logged hx, loggedUpTo]
    rcases hlater.log x hx with hold | hle
    · simp only [hold, true_and]
    · simp only [hnew hle, and_false]
  · obtain ⟨w, hw, rfl⟩ := mem_map.mp hx
    obtain ⟨u, hu, huw, rfl⟩ := h'.writer_live (Option.mem_toList.mp hw)
    have hbig := hnew (hlater.live u hu huw)
    simp only [asofSees, loggedUpTo, hbig, and_false]

end Readers

/-- **Older readers keep their rows exactly if none of them is inserted again.** From a state
where no writer is at work on: a reader that keeps its snapshot, and a scan as of an earlier
version, return the same rows if and only if no row they returned is inserted by a later writer. -/
theorem readers_keep_rows_iff {c : Codec} {p : Pager} {s s' : DbState}
    (hmax : p.hdr.maxTxnid.toNat + 1 < 2 ^ 64) (hrun : DbRun c unusedRowid p s) (hidle : s.Idle)
    (hlater : Relation.ReflTransGen (DbStep c unusedRowid) s s') :
    (∀ l ∈ s.live, l ∈ s'.live →
      (engScan s'.mgr l.txn s'.cur 0 = engScan s.mgr l.txn s.cur 0 ↔
        ∀ row ∈ (engScan s.mgr l.txn s.cur 0).2, ¬ InsertedSince s s' row.1)) ∧
    ∀ (t t' : Txn) (asof : UInt64), asof ≠ 0 → asof < s.mgr.next →
      (engScan s'.mgr t' s'.cur asof = engScan s.mgr t s.cur asof ↔
        ∀ row ∈ (engScan s.mgr t s.cur asof).2, ¬ InsertedSince s s' row.1) := by
  obtain ⟨a, hsteps, hrel⟩ := (dbRel_init hmax).run Serial.inv_empty unusedRowid_on hrun
  have hinv : a.Inv := Serial.inv_empty.run hsteps
  obtain ⟨a', hsteps', hrel'⟩ := hrel.run hinv unusedRowid_on hlater
  refine ⟨fun l hl hl' => ?_, fun t t' asof h0 hasof => ?_⟩
  · refine hrel.scan_iff hinv hidle hrel' hsteps' (S := seesFirst s.log l.seen) (fun x hx => ?_) ?_ ?_
    · rw [seesFirst, decide_eq_true_iff, map_take] at hx
      exact mem_of_mem_take hx
    · exact hrel.reader_sees hl (hidle l hl)
    · exact hrel.reader_sees_later hinv hidle hrel' hsteps' hl hl'
  · have hscan : ∀ m t, scanSees m t asof = asofSees m asof := fun m t => if_pos h0
    refine hrel.scan_iff hinv hidle hrel' hsteps' (S := loggedUpTo s asof) (fun x hx => ?_) ?_ ?_
    · exact (decide_eq_true_iff.mp hx).1
    · rw [hscan]
      exact hrel.asofSees_later (later_refl hidle) hasof
    · rw [hscan]
      exact hrel'.asofSees_later (later_run hidle hlater) hasof

/-! ## Two histories -/

instance (r : UInt64) (ch : RowChange) : Decidable (ch.inserts r) :=
  match ch with
  | .insert k _ => inferInstanceAs (Decidable (r = k))
  | .update _ _ => .isFalse id
  | .remove _ => .isFalse id

instance (s s' : DbState) (r : UInt64) : Decidable (InsertedSince s s' r) :=
  inferInstanceAs (Decidable ((∃ w ∈ s'.log.drop s.log.length, ∃ ch ∈ w.2, ch.inserts r) ∨
    ∃ l ∈ s'.live, ∃ ch ∈ l.own, ch.inserts r))

/-- Row 1 is inserted and committed, a reader begins, row 1 is removed; then a last writer. -/
theorem exec_removed (chs : List RowChange) (Q : DbState → DbState → Prop)
    [∀ s s', Decidable (Q s s')]
    (h : ((DbCmd.writer [.insert 1 [7]] ++ [DbCmd.begin false] ++ DbCmd.writer [.remove 1]).foldlM
      (DbState.exec Codec.identity unusedRowid) (DbState.init freshPager)).bind (fun s =>
        ((DbCmd.writer chs).foldlM (DbState.exec Codec.identity unusedRowid) s).map
          fun s' => decide (Q s s')) = some true) :
    ∃ s s', DbRun Codec.identity unusedRowid freshPager s ∧
      Relation.ReflTransGen (DbStep Codec.identity unusedRowid) s s' ∧ s'.live = s.live ∧
      Q s s' := by
  obtain ⟨s, hexec, h⟩ := Option.bind_eq_some_iff.mp h
  obtain ⟨s', hexec', hQ⟩ := Option.map_eq_some_iff.mp h
  exact ⟨s, s', DbState.exec_run hexec, DbState.exec_run hexec', DbState.exec_writer_live hexec',
    of_decide_eq_true hQ⟩

/-- The last writer inserts another row: the reader still has row 1. -/
theorem readers_keep_rows_other : ∃ s s' l, DbRun Codec.identity unusedRowid freshPager s ∧
    Relation.ReflTransGen (DbStep Codec.identity unusedRowid) s s' ∧ l ∈ s.live ∧ l ∈ s'.live ∧
    engScan s.mgr l.txn s.cur 0 = (.ok, [(1, [7])]) ∧
    engScan s'.mgr l.txn s'.cur 0 = engScan s.mgr l.txn s.cur 0 := by
  obtain ⟨s, s', hrun, hlater, hlive, hidle, hnot, hscan⟩ := exec_removed [.insert 2 [8]]
    (fun s s' => s.Idle ∧ ¬ InsertedSince s s' 1 ∧
      s.live.map (fun l => engScan s.mgr l.txn s.cur 0) = [(.ok, [(1, [7])])]) (by decide +kernel)
  obtain ⟨l, rest, hl, hlscan, -⟩ := map_eq_cons_iff.mp hscan
  have hmem : l ∈ s.live := by simp [hl]
  refine ⟨s, s', l, hrun, hlater, hmem, hlive ▸ hmem, hlscan, ?_⟩
  refine ((readers_keep_rows_iff (by decide) hrun hidle hlater).1 l hmem (hlive ▸ hmem)).mpr ?_
  rw [hlscan]
  simpa using hnot

/-- The last writer inserts row 1 again: it is gone for the reader, and as of version 1. -/
theorem reader_loses_row : ∃ s s' l, DbRun Codec.identity unusedRowid freshPager s ∧ s.Idle ∧
    Relation.ReflTransGen (DbStep Codec.identity unusedRowid) s s' ∧ s'.Idle ∧
    l ∈ s.live ∧ l ∈ s'.live ∧
    engScan s.mgr l.txn s.cur 0 = (.ok, [(1, [7])]) ∧ engScan s'.mgr l.txn s'.cur 0 = (.ok, []) ∧
    engScan s.mgr l.txn s.cur 1 = (.ok, [(1, [7])]) ∧ engScan s'.mgr l.txn s'.cur 1 = (.ok, []) := by
  obtain ⟨s, s', hrun, hlater, hlive, hidle, hlen, hscan⟩ := exec_removed [.insert 1 [8]]
    (fun s s' => s.Idle ∧ s.live.length = 1 ∧ ∀ l ∈ s.live,
      engScan s.mgr l.txn s.cur 0 = (.ok, [(1, [7])]) ∧ engScan s'.mgr l.txn s'.cur 0 = (.ok, []) ∧
      engScan s.mgr l.txn s.cur 1 = (.ok, [(1, [7])]) ∧ engScan s'.mgr l.txn s'.cur 1 = (.ok, []))
    (by decide +kernel)
  obtain ⟨l, hl⟩ := length_eq_one_iff.mp hlen
  have hmem : l ∈ s.live := by simp [hl]
  refine ⟨s, s', l, hrun, hidle, hlater, ?_, hmem, hlive ▸ hmem, hscan l hmem⟩
  rw [DbState.Idle, hlive]
  exact hidle

end Tdb
