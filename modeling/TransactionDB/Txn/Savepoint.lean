import TransactionDB.Storage.PagerOpen
import TransactionDB.Txn.Txn

/-!
# TransactionDB — ROLLBACK TO

A transaction keeps a stack of names, the pager a stack of before-images. `TxnRun` records
with every history the savepoints that are live: what every page and the header were when
each was created. The invariant ties the three stacks together: the levels count up, an
image of a page is what the page was, and every page with an image is still dirty.

`tdb_pager_savepoint_rollback` collects the dirty pages in an array of 2112 entries. A
return to a savepoint is exact if and only if the pages it passes over already have the
images they had then.
-/

namespace Tdb

open Layout List

variable {name : Bytes} {inner outer : List LiveSp} {sp : LiveSp}

/-! ## Histories of a transaction -/

/-- What is remembered of a live savepoint. -/
structure LiveSp where
  name : Bytes
  img : UInt32 → Bytes
  hdr : DbHdr

/-- A writable transaction with its live savepoints, outermost first. -/
inductive TxnRun (c : Codec) : TxnMgr → Txn → List LiveSp → Prop where
  | begin (m0 m : TxnMgr) (iso : Isolation) (t : Txn) (fs : List Frame) (tail : Bytes)
      (hcache : CacheInv c m0.pager fs tail)
      (hbegin : txnBegin c m0 iso true = (.ok, m, some t)) : TxnRun c m t []
  | page (m : TxnMgr) (t : Txn) (live : List LiveSp) (op : PageOp) (hrun : TxnRun c m t live) :
      TxnRun c { m with pager := op.run c m.pager } t live
  | savepoint (m m' : TxnMgr) (t t' : Txn) (live : List LiveSp) (name : Bytes)
      (hrun : TxnRun c m t live) (hsp : txnSavepoint m t name = (.ok, m', t')) :
      TxnRun c m' t' (live ++ [⟨name, pageImage c m.pager, m.pager.hdr⟩])
  | release (m m' : TxnMgr) (t t' : Txn) (outer inner : List LiveSp) (sp : LiveSp) (name : Bytes)
      (hrun : TxnRun c m t (outer ++ sp :: inner)) (hname : sameName sp.name name = true)
      (hinner : ∀ s ∈ inner, sameName s.name name = false)
      (hrel : txnRelease m t name = (.ok, m', t')) : TxnRun c m' t' outer
  | rollbackTo (m m' : TxnMgr) (t t' : Txn) (outer inner : List LiveSp) (sp : LiveSp)
      (name : Bytes) (hrun : TxnRun c m t (outer ++ sp :: inner))
      (hname : sameName sp.name name = true)
      (hinner : ∀ s ∈ inner, sameName s.name name = false)
      (hroll : txnRollbackTo m t name = (.ok, m', t')) : TxnRun c m' t' (outer ++ [sp])

/-! ## The invariant -/

/-- The pager's savepoint `sp` stands for the live savepoint `l`. -/
structure SpRep (c : Codec) (p : Pager) (sp : PagerSp) (l : LiveSp) : Prop where
  hdr : sp.hdr = l.hdr
  img : ∀ g, (sp.image g).getD ((p.store c).base g) = l.img g
  lengths : ∀ g data, sp.image g = some data → data.length = p.pageSize
  dirty : ∀ g, (sp.image g).isSome → ((p.store c).dirty g).isSome

/-- Inner savepoints have images of all pages that outer ones have. -/
def Nested (a b : PagerSp) : Prop := ∀ g, (a.image g).isSome → (b.image g).isSome

/-- The name stack for live savepoints from level `k` on. -/
def nameStack (k : Nat) (live : List LiveSp) : List (Bytes × Nat) :=
  (live.zipIdx k).map (fun e => (e.1.name, e.2))

structure TxnInv (c : Codec) (m : TxnMgr) (t : Txn) (live : List LiveSp) : Prop where
  cache : ∃ fs tail, CacheInv c m.pager fs tail
  writable : t.writable = true
  pager_writable : m.pager.readonly = false
  aligned : ∃ old cur, m.pager.sps = old ++ cur ∧ t.sps = nameStack old.length live ∧
    List.Forall₂ (SpRep c m.pager) cur live ∧ cur.Pairwise Nested

section

variable {c : Codec} {p p' : Pager} {m m' : TxnMgr} {t t' : Txn} {live : List LiveSp}
  {fs : List Frame} {tail : Bytes}

theorem nameStack_append (k : Nat) (xs ys : List LiveSp) :
    nameStack k (xs ++ ys) = nameStack k xs ++ nameStack (k + xs.length) ys := by
  simp [nameStack, zipIdx_append]

theorem length_nameStack (k : Nat) (xs : List LiveSp) : (nameStack k xs).length = xs.length := by
  simp [nameStack]

theorem mem_nameStack {k : Nat} {xs : List LiveSp} {e : Bytes × Nat} (h : e ∈ nameStack k xs) :
    (∃ l ∈ xs, l.name = e.1) ∧ e.2 < k + xs.length := by
  obtain ⟨⟨l, i⟩, hmem, rfl⟩ := mem_map.mp h
  obtain ⟨hlo, hhi, heq⟩ := mem_zipIdx hmem
  exact ⟨⟨l, by rw [heq]; exact getElem_mem _, rfl⟩, hhi⟩

/-- A savepoint is still represented after a change that keeps its pages dirty. -/
theorem SpRep.step {sp : PagerSp} {l : LiveSp} (h : SpRep c p sp l)
    (hbase : (p'.store c).base = (p.store c).base) (hsize : p'.pageSize = p.pageSize)
    (hdirty : ∀ g, (sp.image g).isSome → ((p.store c).dirty g).isSome →
      ((p'.store c).dirty g).isSome) : SpRep c p' sp l :=
  ⟨h.hdr, by rw [hbase]; exact h.img, by rw [hsize]; exact h.lengths,
    fun g hg => hdirty g hg (h.dirty g hg)⟩

theorem spReps_step {cur : List PagerSp} (h : List.Forall₂ (SpRep c p) cur live)
    (hbase : (p'.store c).base = (p.store c).base) (hsize : p'.pageSize = p.pageSize)
    (hdirty : ∀ sp ∈ cur, ∀ g, (sp.image g).isSome → ((p.store c).dirty g).isSome →
      ((p'.store c).dirty g).isSome) : List.Forall₂ (SpRep c p') cur live := by
  induction h with
  | nil => exact .nil
  | cons hhead _ ih =>
    exact .cons (hhead.step hbase hsize (hdirty _ mem_cons_self))
      (ih (forall_mem_cons.mp hdirty).2)

theorem spReps_dirty {cur : List PagerSp} (h : List.Forall₂ (SpRep c p) cur live) :
    ∀ sp ∈ cur, ∀ g, (sp.image g).isSome → ((p.store c).dirty g).isSome := by
  induction h with
  | nil => simp
  | cons hhead _ ih =>
    intro sp hsp
    rcases mem_cons.mp hsp with rfl | hsp
    · exact hhead.dirty
    · exact ih sp hsp

/-! ## Steps -/

theorem pagerSavepoint_ok (hro : p.readonly = false) :
    pagerSavepoint p = (some p.sps.length, { p with sps := p.sps ++ [spSnapshot p] }) := by
  unfold pagerSavepoint
  rw [if_neg (by simp [hro])]

theorem txnBegin_inv (hcache : CacheInv c m.pager fs tail) {iso : Isolation}
    (hbegin : txnBegin c m iso true = (.ok, m', some t)) : TxnInv c m' t [] := by
  unfold txnBegin pagerBegin at hbegin
  by_cases hro : m.pager.readonly = true
  · simp [hro] at hbegin
  · simp only [hro, if_true, if_false, Bool.false_eq_true] at hbegin
    cases hbegin
    refine ⟨⟨fs, tail, hcache.congr rfl rfl rfl rfl⟩, rfl, by simp, ?_⟩
    exact ⟨m.pager.sps, [], by simp, rfl, .nil, .nil⟩

theorem TxnInv.page (h : TxnInv c m t live) (hc : c.Inverts) (op : PageOp) :
    TxnInv c { m with pager := op.run c m.pager } t live := by
  obtain ⟨fs, tail, hcache⟩ := h.cache
  obtain ⟨hinv, hstep⟩ := hcache.pageOp hc op
  obtain ⟨old, cur, hsps, hnames, hreps, hnest⟩ := h.aligned
  refine ⟨⟨fs, tail, hinv⟩, h.writable, hstep.frame.readonly.trans h.pager_writable,
    old, cur, hstep.frame.sps.trans hsps, hnames, ?_, hnest⟩
  exact spReps_step hreps (hstep.frame.base c) hstep.frame.pageSize (fun _ _ g _ => hstep.dirty g)

/-- A new savepoint has the images of now. -/
theorem CacheInv.spRep_new (h : CacheInv c p fs tail) (name : Bytes) :
    SpRep c { p with sps := p.sps ++ [spSnapshot p] } (spSnapshot p)
      ⟨name, pageImage c p, p.hdr⟩ := by
  have himg := h.savepoint_image
  refine ⟨rfl, fun g => ?_, fun g data hg => ?_, fun g hg => ?_⟩
  · rw [himg g]
    exact (h.pageImage_eq g).symm
  · rw [himg g] at hg
    exact h.length_dirty hg
  · rw [himg g] at hg
    exact hg

theorem TxnInv.savepoint (h : TxnInv c m t live) (hsp : txnSavepoint m t name = (.ok, m', t')) :
    TxnInv c m' t' (live ++ [⟨name, pageImage c m.pager, m.pager.hdr⟩]) := by
  obtain ⟨fs, tail, hcache⟩ := h.cache
  obtain ⟨old, cur, hsps, hnames, hreps, hnest⟩ := h.aligned
  have hlen := hreps.length_eq
  unfold txnSavepoint at hsp
  rw [if_pos h.writable, pagerSavepoint_ok h.pager_writable] at hsp
  cases hsp
  refine ⟨⟨fs, tail, hcache.congr rfl rfl rfl rfl⟩, h.writable, h.pager_writable,
    old, cur ++ [spSnapshot m.pager], ?_, ?_, ?_, ?_⟩
  · rw [hsps, append_assoc]
  · rw [hnames, nameStack_append, hsps, length_append, hlen]
    rfl
  · have hreps' : List.Forall₂ (SpRep c { m.pager with sps := m.pager.sps ++ [spSnapshot m.pager] })
        cur live := spReps_step hreps rfl rfl (fun _ _ _ _ h => h)
    exact rel_append hreps' (.cons (hcache.spRep_new name) .nil)
  · rw [pairwise_append]
    refine ⟨hnest, pairwise_singleton _ _, ?_⟩
    intro a ha b hb g hg
    rw [mem_singleton.mp hb, hcache.savepoint_image g]
    exact spReps_dirty hreps a ha g hg

/-- The stacks around one live savepoint. -/
theorem TxnInv.split (h : TxnInv c m t (outer ++ sp :: inner)) :
    ∃ old co cs ci, m.pager.sps = old ++ (co ++ cs :: ci) ∧ co.length = outer.length ∧
      t.sps = nameStack old.length outer ++ (sp.name, old.length + outer.length) ::
        nameStack (old.length + outer.length + 1) inner ∧
      List.Forall₂ (SpRep c m.pager) co outer ∧ SpRep c m.pager cs sp ∧
      (co ++ [cs]).Pairwise Nested := by
  obtain ⟨old, cur, hsps, hnames, hreps, hnest⟩ := h.aligned
  have hco := List.forall₂_take_append cur outer (sp :: inner) hreps
  have hrest := List.forall₂_drop_append cur outer (sp :: inner) hreps
  obtain ⟨cs, ci, hcs, hci, hdrop⟩ := List.forall₂_cons_right_iff.mp hrest
  have hcur : cur = cur.take outer.length ++ cs :: ci := by
    rw [← hdrop, take_append_drop]
  refine ⟨old, cur.take outer.length, cs, ci, ?_, hco.length_eq, ?_, hco, hcs, ?_⟩
  · rw [hsps]
    exact congrArg (old ++ ·) hcur
  · rw [hnames, nameStack_append]
    rfl
  · refine hnest.sublist ?_
    conv_rhs => rw [hcur]
    exact List.Sublist.append_left (by simp) _

section

variable (hname : sameName sp.name name = true) (hinner : ∀ s ∈ inner, sameName s.name name = false)

include hname hinner

theorem findSp_split {old : List PagerSp}
    (hnames : t.sps = nameStack old.length outer ++ (sp.name, old.length + outer.length) :: nameStack (old.length + outer.length + 1) inner) :
    findSp t name = some (outer.length, old.length + outer.length) := by
  have hfind := findSp_eq hnames hname (fun s hs => by
    obtain ⟨⟨l, hl, heq⟩, -⟩ := mem_nameStack hs
    rw [← heq]
    exact hinner l hl)
  rwa [length_nameStack] at hfind

theorem TxnInv.release (h : TxnInv c m t (outer ++ sp :: inner))
    (hrel : txnRelease m t name = (.ok, m', t')) : TxnInv c m' t' outer := by
  obtain ⟨fs, tail, hcache⟩ := h.cache
  obtain ⟨old, co, cs, ci, hsps, hlen, hnames, hreps, -, hnest⟩ := h.split
  unfold txnRelease pagerRelease at hrel
  rw [findSp_split hname hinner hnames] at hrel
  simp only at hrel
  rw [if_neg (by rw [hsps]; simp; omega)] at hrel
  cases hrel
  refine ⟨⟨fs, tail, hcache.congr rfl rfl rfl rfl⟩, h.writable, h.pager_writable, old, co,
    ?_, ?_, spReps_step hreps rfl rfl (fun _ _ _ _ h => h), ?_⟩
  · rw [hsps, ← hlen, ← append_assoc, ← length_append, take_left]
  · change t.sps.take outer.length = _
    rw [hnames, ← length_nameStack old.length outer, take_left]
  · exact (pairwise_append.mp hnest).1

end

/-- The dirty pages that a return to a savepoint does not collect. -/
def passedOver (p : Pager) : List Page :=
  ((bucketOrder p.cache).filter (fun pg => pg.dirty)).drop dirtyMax

theorem mem_passedOver_iff (h : CacheInv c p fs tail) {pg : Page} :
    pg ∈ passedOver p ↔ cacheLookup p pg.pgno = some pg ∧ pg.dirty = true ∧
      pg.pgno ∉ (collectDirty p).map Page.pgno := by
  have hperm := bucketOrder_perm p.cache
  have hnd : (((bucketOrder p.cache).filter (fun pg => pg.dirty)).map Page.pgno).Nodup :=
    Keyed.nodup_filter ((hperm.map Page.pgno).nodup_iff.mpr h.nodup)
  have hsplit : (bucketOrder p.cache).filter (fun pg => pg.dirty)
      = collectDirty p ++ passedOver p := (take_append_drop _ _).symm
  have hmem : ∀ q, q ∈ collectDirty p ++ passedOver p ↔ q ∈ p.cache ∧ q.dirty = true := by
    intro q
    rw [← hsplit, mem_filter, hperm.mem_iff]
  constructor
  · intro hpg
    obtain ⟨hin, hd⟩ := (hmem pg).mp (mem_append_right _ hpg)
    refine ⟨Keyed.find_of_mem h.nodup hin, hd, fun hcoll => ?_⟩
    rw [hsplit, map_append, nodup_append] at hnd
    exact hnd.2.2 _ hcoll _ (mem_map_of_mem hpg) rfl
  · rintro ⟨hl, hd, hnot⟩
    rcases mem_append.mp ((hmem pg).mpr ⟨Keyed.mem_of_find hl, hd⟩) with hcoll | hpass
    · exact absurd (mem_map_of_mem hcoll) hnot
    · exact hpass

/-- What a return to a live savepoint does, with all the stacks. -/
theorem TxnInv.rollbackTo (h : TxnInv c m t (outer ++ sp :: inner))
    (hname : sameName sp.name name = true) (hinner : ∀ s ∈ inner, sameName s.name name = false) :
    ∃ m' t' cs, txnRollbackTo m t name = (.ok, m', t') ∧ TxnInv c m' t' (outer ++ [sp]) ∧
      SpRep c m.pager cs sp ∧
      m'.pager.store c = (m.pager.store c).revertTo ((collectDirty m.pager).map Page.pgno)
        cs.image sp.hdr := by
  obtain ⟨fs, tail, hcache⟩ := h.cache
  obtain ⟨old, co, cs, ci, hsps, hlen, hnames, hreps, hcs, hnest⟩ := h.split
  have hget : m.pager.sps[old.length + outer.length]? = some cs := by
    rw [hsps, ← hlen, ← append_assoc, ← length_append]
    simp
  obtain ⟨p', hroll, hinv, hstore, hdisk, hsps', -⟩ := hcache.rollbackTo hget hcs.lengths
  have hbase : (p'.store c).base = (m.pager.store c).base := hdisk.base c
  -- pages with an image stay dirty: those not collected are untouched, and the others have
  -- an image in this savepoint, because it is nested in the outer ones
  have hdirty : ∀ a ∈ co ++ [cs], ∀ g, (a.image g).isSome →
      ((m.pager.store c).dirty g).isSome → ((p'.store c).dirty g).isSome := by
    intro a ha g hg hd
    rw [hstore]
    unfold Store.revertTo
    dsimp only
    split
    · rcases mem_append.mp ha with ha | ha
      · exact (pairwise_append.mp hnest).2.2 a ha cs (by simp) g hg
      · rw [← mem_singleton.mp ha]
        exact hg
    · exact hd
  refine ⟨{ m with pager := p' }, { t with sps := t.sps.take (outer.length + 1) }, cs, ?_, ?_, hcs,
    by rw [← hcs.hdr]; exact hstore⟩
  · unfold txnRollbackTo
    rw [findSp_split hname hinner hnames]
    simp only [hroll]
  · refine ⟨⟨fs, tail, hinv⟩, h.writable, hdisk.readonly.trans h.pager_writable, old, co ++ [cs],
      ?_, ?_, ?_, hnest⟩
    · change p'.sps = _
      rw [hsps', hsps, ← hlen, show old ++ (co ++ cs :: ci) = (old ++ (co ++ [cs])) ++ ci by simp,
        show old.length + co.length + 1 = (old ++ (co ++ [cs])).length by simp; omega,
        take_left]
    · rw [hnames, nameStack_append]
      have hcut : (nameStack old.length outer ++ [(sp.name, old.length + outer.length)]).length
          = outer.length + 1 := by
        simp [length_nameStack]
      rw [← hcut, show nameStack old.length outer ++ (sp.name, old.length + outer.length) ::
          nameStack (old.length + outer.length + 1) inner
          = (nameStack old.length outer ++ [(sp.name, old.length + outer.length)]) ++
            nameStack (old.length + outer.length + 1) inner by simp, take_left]
      rfl
    · exact spReps_step (rel_append hreps (.cons hcs .nil)) hbase hdisk.pageSize hdirty

/-- **Every writable transaction** keeps its stacks aligned: by induction on its history. -/
theorem TxnRun.inv (hc : c.Inverts) (hrun : TxnRun c m t live) : TxnInv c m t live := by
  induction hrun with
  | begin m0 m iso t fs tail hcache hbegin => exact txnBegin_inv hcache hbegin
  | page m t live op _ ih => exact ih.page hc op
  | savepoint m m' t t' live name _ hsp ih => exact ih.savepoint hsp
  | release m m' t t' outer inner sp name _ hname hinner hrel ih =>
    exact ih.release hname hinner hrel
  | rollbackTo m m' t t' outer inner sp name _ hname hinner hroll ih =>
    obtain ⟨m1, t1, cs, hroll1, hinv, -⟩ := ih.rollbackTo hname hinner
    rw [hroll] at hroll1
    cases hroll1
    exact hinv

/-- The images after a return to a savepoint, page by page. -/
theorem read_revertTo {cs : PagerSp} (h : CacheInv c p fs tail) (hcs : SpRep c p cs sp) (g : UInt32) :
    ((p.store c).revertTo ((collectDirty p).map Page.pgno) cs.image sp.hdr).read g = sp.img g ↔
      ∀ pg ∈ passedOver p, pg.pgno = g → pg.data = sp.img g := by
  have himg := hcs.img g
  unfold Store.read Store.revertTo
  dsimp only
  by_cases hg : g ∈ (collectDirty p).map Page.pgno
  · rw [if_pos hg]
    refine ⟨fun _ pg hpg heq => ?_, fun _ => himg⟩
    exact absurd (heq ▸ hg) ((mem_passedOver_iff h).mp hpg).2.2
  · rw [if_neg hg]
    cases hd : (p.store c).dirty g with
    | none =>
      -- clean now, so clean at the savepoint
      have hnone : cs.image g = none := by
        cases hi : cs.image g with
        | none => rfl
        | some data =>
          have := hcs.dirty g (by rw [hi]; rfl)
          rw [hd] at this
          cases this
      rw [hnone] at himg
      refine ⟨fun _ pg hpg heq => ?_, fun _ => himg⟩
      obtain ⟨hl, hdirty, -⟩ := (mem_passedOver_iff h).mp hpg
      rw [heq] at hl
      simp [Pager.store, hl, hdirty] at hd
    | some data =>
      have hd' := hd
      simp only [Pager.store] at hd'
      obtain ⟨pg, hl, hsome⟩ := Option.bind_eq_some_iff.mp hd'
      have hkey : pg.pgno = g := Keyed.key_of_find hl
      split at hsome
      · rename_i hdirty
        cases hsome
        have hpass : pg ∈ passedOver p :=
          (mem_passedOver_iff h).mpr ⟨by rw [hkey]; exact hl, hdirty, by rw [hkey]; exact hg⟩
        constructor
        · intro hread q hq heq
          have hql := ((mem_passedOver_iff h).mp hq).1
          rw [heq, hl] at hql
          cases hql
          exact hread
        · exact fun hall => hall pg hpass hkey
      · cases hsome

/-- **ROLLBACK TO restores exactly the savepoint state if and only if no page it passes over
has changed since.** In any writable transaction, for the innermost live savepoint `sp` of a
name: the call succeeds, keeps that savepoint and the outer ones and drops the inner ones, all
levels stay valid, and the transaction can go on. -/
theorem txnRollbackTo_restores_iff (hc : c.Inverts) {outer inner : List LiveSp} {sp : LiveSp}
    {name : Bytes} (hrun : TxnRun c m t (outer ++ sp :: inner))
    (hname : sameName sp.name name = true) (hinner : ∀ s ∈ inner, sameName s.name name = false) :
    ∃ m' t', txnRollbackTo m t name = (.ok, m', t') ∧ TxnRun c m' t' (outer ++ [sp]) ∧
      t'.sps = t.sps.take (outer.length + 1) ∧
      t'.sps.map Prod.fst = (outer ++ [sp]).map LiveSp.name ∧
      (∀ e ∈ t'.sps, e.2 < m'.pager.sps.length) ∧
      (((∀ g, g ≠ 0 → ∃ q pg, pagerGet c m'.pager g = (.ok, q, some pg) ∧ pg.data = sp.img g) ∧
          m'.pager.hdr = sp.hdr) ↔
        ∀ pg ∈ passedOver m.pager, pg.pgno ≠ 0 → pg.data = sp.img pg.pgno) := by
  have hinv := hrun.inv hc
  obtain ⟨fs, tail, hcache⟩ := hinv.cache
  obtain ⟨m', t', cs, hroll, hinv', hcs, hstore⟩ := hinv.rollbackTo hname hinner
  obtain ⟨fs', tail', hcache'⟩ := hinv'.cache
  obtain ⟨old, cur, hsps, hnames, hreps, -⟩ := hinv'.aligned
  refine ⟨m', t', hroll, .rollbackTo m m' t t' outer inner sp name hrun hname hinner hroll,
    ?_, ?_, ?_, ?_⟩
  · obtain ⟨old0, co0, cs0, ci0, -, -, hnames0, -⟩ := hinv.split
    unfold txnRollbackTo at hroll
    rw [findSp_split hname hinner hnames0] at hroll
    simp only [Prod.mk.injEq] at hroll
    rw [← hroll.2.2]
  · rw [hnames, nameStack, map_map]
    conv_rhs => rw [← zipIdx_map_fst old.length (outer ++ [sp]), map_map]
    rfl
  · intro e he
    rw [hnames] at he
    have hlt := (mem_nameStack he).2
    rw [hsps, length_append, hreps.length_eq]
    exact hlt
  · have hhdr : m'.pager.hdr = sp.hdr := hdr_of_store hstore
    constructor
    · rintro ⟨hget, -⟩ pg hpg hne
      obtain ⟨q, pg', hrun', hdata⟩ := hget pg.pgno hne
      rw [pagerGet_image hrun', hcache'.pageImage_eq, hstore] at hdata
      exact (read_revertTo hcache hcs pg.pgno).mp hdata pg hpg rfl
    · intro hall
      refine ⟨fun g hg => ?_, hhdr⟩
      obtain ⟨q, pg, hrun', -, -, -, -, -, hdata⟩ := hcache'.get hc hg
      refine ⟨q, pg, hrun', ?_⟩
      rw [hdata, hstore]
      refine (read_revertTo hcache hcs g).mpr (fun pg hpg heq => ?_)
      rw [← heq]
      exact hall pg hpg (by rw [heq]; exact hg)

end

/-! ## Two returns

A transaction on a new database: a savepoint `a`, then `n` new pages filled with ones. -/

section Grown

variable {c : Codec}

theorem TxnRun.pages {t : Txn} {live : List LiveSp} (ops : List PageOp) : ∀ {m : TxnMgr},
    TxnRun c m t live → TxnRun c { m with pager := ops.foldl (PageOp.run c) m.pager } t live := by
  induction ops with
  | nil => exact fun h => h
  | cons op rest ih => exact fun h => ih (.page _ t live op h)

theorem txnBegin_ok {m : TxnMgr} (hro : m.pager.readonly = false) (iso : Isolation) :
    ∃ m' t, txnBegin c m iso true = (.ok, m', some t) ∧
      m'.pager = { m.pager with inTxn := true } ∧ t.writable = true ∧ t.id = m.next ∧
      m'.next = m.next + 1 := by
  unfold txnBegin pagerBegin
  simp only [hro, if_true, if_false, Bool.false_eq_true]
  exact ⟨_, _, rfl, rfl, rfl, rfl, rfl⟩

theorem TxnInv.savepoint_ok {m : TxnMgr} {t : Txn} {live : List LiveSp} (h : TxnInv c m t live)
    (name : Bytes) : ∃ m' t', txnSavepoint m t name = (.ok, m', t') ∧
      m'.pager = { m.pager with sps := m.pager.sps ++ [spSnapshot m.pager] } := by
  unfold txnSavepoint
  rw [if_pos h.writable, pagerSavepoint_ok h.pager_writable]
  exact ⟨_, _, rfl, rfl⟩

/-- A page of ones. -/
def onesImage : Bytes := List.replicate 4096 1

theorem length_onesImage : onesImage.length = 4096 := length_replicate

theorem onesImage_ne_zeros : onesImage ≠ zeros 4096 := by
  intro h
  have hhead := congrArg List.head? h
  rw [onesImage, zeros, head?_replicate, head?_replicate] at hhead
  exact absurd hhead (by decide)

theorem grown_txn (hc : c.Inverts) {n : Nat} (hn : n < 2 ^ 31) :
    ∃ m t sp, TxnRun c m t [sp] ∧ sp.name = [97] ∧ (∀ g, g ≠ 1 → sp.img g = zeros 4096) ∧
      (m.pager.cache.filter (fun pg => pg.dirty)).length = n ∧
      ∀ g d, (m.pager.store c).dirty g = some d → d = onesImage ∧ g ≠ 0 ∧ g ≠ 1 := by
  obtain ⟨p, hopen, hro, hps, hhdr, hclean, hbase⟩ := pagerOpen_empty hc
  obtain ⟨fs, tail, hinv⟩ := ((dbFiles_empty c).open hc hopen).1
  have hcache := hinv.toCacheInv
  obtain ⟨m1, t1, hbegin, hp1, -⟩ := txnBegin_ok (c := c) (m := txnmgrOpen p) hro .snapshot
  have hrun1 : TxnRun c m1 t1 [] := .begin _ m1 _ t1 fs tail hcache hbegin
  obtain ⟨m2, t2, hsp, hp2⟩ := (hrun1.inv hc).savepoint_ok [97]
  have hrun2 := TxnRun.savepoint m1 m2 t1 t2 [] [97] hrun1 hsp
  have hcache1 : CacheInv c m1.pager fs tail := by
    rw [hp1]
    exact hcache.congr rfl rfl rfl rfl
  have hcache2 : CacheInv c m2.pager fs tail := by
    rw [hp2]
    exact hcache1.congr rfl rfl rfl rfl
  have hstore1 : m1.pager.store c = p.store c := by
    rw [hp1]
    rfl
  have hstore2 : m2.pager.store c = p.store c := by
    rw [hp2]
    exact hstore1
  have hhdr2 : m2.pager.hdr = p.hdr := hdr_of_store hstore2
  obtain ⟨q, hq, hcacheq, -, -, hnew, hold⟩ := hcache2.grow hc
    (show m2.pager.readonly = false by rw [hp2, hp1]; exact hro)
    (by rw [hhdr2, hhdr]; rfl) (k := 1) (by rw [hhdr2, hhdr]; rfl)
    (show onesImage.length = m2.pager.pageSize by rw [length_onesImage, hp2, hp1]; exact hps.symm) n
  have hrun3 := hrun2.pages (growOps 1 onesImage n)
  rw [hq] at hrun3
  have hdirty : ∀ g d, (q.store c).dirty g = some d →
      d = onesImage ∧ ∃ i < n, g = UInt32.ofNat (1 + 1 + i) := by
    intro g d hd
    rcases hold g d hd with hd | hd
    · rw [hstore2, hclean g] at hd
      cases hd
    · exact hd
  have hval : ∀ i < n, (UInt32.ofNat (1 + 1 + i)).toNat = 2 + i := by
    intro i hi
    rw [UInt32.toNat_ofNat']
    omega
  refine ⟨_, t2, _, hrun3, rfl, ?_, ?_, ?_⟩
  · intro g hg
    change pageImage c m1.pager g = _
    rw [hcache1.pageImage_eq g, hstore1, Store.read, hclean g]
    exact hbase g hg
  · let S := (List.range n).map (fun i => UInt32.ofNat (1 + 1 + i))
    have hS : S.length = n := by simp [S]
    refine le_antisymm ?_ ?_
    · refine (hcacheq.dirty_length_le (S := S) ?_).trans_eq hS
      intro g d hd
      obtain ⟨-, i, hi, rfl⟩ := hdirty g d hd
      exact mem_map.mpr ⟨i, mem_range.mpr hi, rfl⟩
    · refine hS.symm.trans_le (le_dirty_length (c := c) ?_ ?_)
      · refine List.Nodup.map_on ?_ nodup_range
        intro i hi j hj heq
        have heq := congrArg UInt32.toNat heq
        rw [hval i (mem_range.mp hi), hval j (mem_range.mp hj)] at heq
        omega
      · intro g hg
        obtain ⟨i, hi, rfl⟩ := mem_map.mp hg
        rw [hnew i (mem_range.mp hi)]
        rfl
  · intro g d hd
    obtain ⟨rfl, i, hi, rfl⟩ := hdirty g d hd
    refine ⟨rfl, ?_, ?_⟩
    all_goals
      intro hg
      have hg := congrArg UInt32.toNat hg
      rw [hval i hi] at hg
      simp at hg
    all_goals omega

theorem length_passedOver (p : Pager) :
    (passedOver p).length = (p.cache.filter (fun pg => pg.dirty)).length - dirtyMax := by
  rw [passedOver, length_drop, ((bucketOrder_perm p.cache).filter _).length_eq]

end Grown

/-- With one new page nothing is passed over, and the return is exact. -/
theorem txnRollbackTo_restores_one : ∃ m t sp m' t',
    TxnRun Codec.identity m t [sp] ∧ (m.pager.cache.filter (fun pg => pg.dirty)).length = 1 ∧
      txnRollbackTo m t [97] = (.ok, m', t') ∧ m'.pager.hdr = sp.hdr ∧
      ∀ g, g ≠ 0 → ∃ q pg,
        pagerGet Codec.identity m'.pager g = (.ok, q, some pg) ∧ pg.data = sp.img g := by
  obtain ⟨m, t, sp, hrun, hname, -, hcount, -⟩ :=
    grown_txn Codec.identity_inverts (n := 1) (by decide)
  obtain ⟨m', t', hroll, -, -, -, -, hiff⟩ := txnRollbackTo_restores_iff Codec.identity_inverts
    (show TxnRun Codec.identity m t ([] ++ sp :: []) from hrun)
    (show sameName sp.name [97] = true by rw [hname]; decide) (by simp)
  have hnone : passedOver m.pager = [] := by
    rw [← length_eq_zero_iff, length_passedOver, hcount]
    decide
  obtain ⟨hget, hhdr⟩ := hiff.mpr (by simp [hnone])
  exact ⟨m, t, sp, m', t', hrun, hcount, hroll, hhdr, hget⟩

/-- With 2113 new pages one is passed over: `tdb_txn_rollback_to` returns `TDB_OK`, and the page
still reads as it was written after the savepoint. -/
theorem txnRollbackTo_passes_over : ∃ m t sp m' t',
    TxnRun Codec.identity m t [sp] ∧ (m.pager.cache.filter (fun pg => pg.dirty)).length = 2113 ∧
      txnRollbackTo m t [97] = (.ok, m', t') ∧
      ∃ g q pg, g ≠ 0 ∧ pagerGet Codec.identity m'.pager g = (.ok, q, some pg) ∧
        pg.data = onesImage ∧ sp.img g = zeros 4096 ∧ pg.data ≠ sp.img g := by
  obtain ⟨m, t, sp, hrun, hname, himg, hcount, hdirty⟩ :=
    grown_txn Codec.identity_inverts (n := 2113) (by decide)
  have hinv := hrun.inv Codec.identity_inverts
  obtain ⟨fs, tail, hcache⟩ := hinv.cache
  obtain ⟨m', t', cs, hroll, hinv', -, hstore⟩ :=
    TxnInv.rollbackTo (show TxnInv Codec.identity m t ([] ++ sp :: []) from hinv)
      (show sameName sp.name [97] = true by rw [hname]; decide) (by simp)
  obtain ⟨fs', tail', hcache'⟩ := hinv'.cache
  have hone : (passedOver m.pager).length = 1 := by
    rw [length_passedOver, hcount]
    decide
  obtain ⟨pg, hpg⟩ := exists_mem_of_length_pos (by rw [hone]; decide)
  obtain ⟨hl, hd, hnot⟩ := (mem_passedOver_iff hcache).mp hpg
  have hdata : (m.pager.store Codec.identity).dirty pg.pgno = some pg.data := by
    simp only [Pager.store, hl, Option.bind_some, hd, if_true]
  obtain ⟨hones, hne0, hne1⟩ := hdirty _ _ hdata
  obtain ⟨q, pg', hget, -, -, -, -, -, hread⟩ := hcache'.get Codec.identity_inverts hne0
  have hread' : pg'.data = onesImage := by
    rw [hread, hstore]
    unfold Store.read Store.revertTo
    dsimp only
    rw [if_neg hnot, hdata]
    exact hones
  refine ⟨m, t, sp, m', t', hrun, hcount, hroll, pg.pgno, q, pg', hne0, hget, hread',
    himg _ hne1, ?_⟩
  rw [hread', himg _ hne1]
  exact onesImage_ne_zeros

end Tdb
