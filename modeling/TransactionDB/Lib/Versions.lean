import Mathlib.Tactic

/-!
# Versions — rows kept as chains of versions

A row is a list of versions, the newest first. A version says which transaction created it,
which one deleted or replaced it, and its value. A reader is given by the set `S` of the
transactions whose work it sees; it reads the first version that was created by one of them
and not deleted by one.

* `Change.store`: what inserting, replacing and removing a row does to the chains. An insert
  starts a new chain.
* `Sound`: the chains mention only transactions of a given set, and only the newest version of
  a row may be live. Then a reader that sees them all reads the newest versions (`current`).
* `Change.lookup_store_blind`: a reader that does not see the writer reads on as before, except
  where a row was inserted.
* `Serial`: a store with one writer at a time, with commit and rollback.
-/

namespace Versions

open List

variable {ι κ β : Type*}

structure Version (ι β : Type*) where
  created : ι
  deleted : Option ι
  value : β
  deriving DecidableEq, Repr

/-- Created by a transaction in `S` and not deleted by one. -/
def Version.visible (S : ι → Bool) (v : Version ι β) : Bool := S v.created && !v.deleted.any S

/-- What a reader sees of a row. -/
def lookup (S : ι → Bool) (vs : List (Version ι β)) : Option β :=
  (vs.find? (fun v => v.visible S)).map Version.value

section Lookup

variable {S S' : ι → Bool} {v : Version ι β} {vs : List (Version ι β)}

@[simp] theorem lookup_nil : lookup S ([] : List (Version ι β)) = none := rfl

theorem lookup_cons : lookup S (v :: vs) = if v.visible S then some v.value else lookup S vs := by
  unfold lookup
  rw [find?_cons]
  cases v.visible S <;> rfl

/-- Readers that see the same of the transactions mentioned read the same. -/
theorem lookup_congr (h : ∀ v ∈ vs, S v.created = S' v.created ∧
    ∀ d, v.deleted = some d → S d = S' d) : lookup S vs = lookup S' vs := by
  induction vs with
  | nil => rfl
  | cons v vs ih =>
    obtain ⟨hc, hd⟩ := h v mem_cons_self
    have hvis : v.visible S = v.visible S' := by
      unfold Version.visible
      rw [hc]
      cases hdel : v.deleted with
      | none => rfl
      | some d => simp [hd d hdel]
    rw [lookup_cons, lookup_cons, hvis, ih (forall_mem_cons.mp h).2]

/-- Versions all deleted by transactions the reader sees. -/
theorem lookup_eq_none (h : ∀ v ∈ vs, ∃ d, v.deleted = some d ∧ S d = true) :
    lookup S vs = none := by
  unfold lookup
  rw [Option.map_eq_none_iff, find?_eq_none]
  intro v hv
  obtain ⟨d, hd, hS⟩ := h v hv
  simp [Version.visible, hd, hS]

end Lookup

/-! ## Changes -/

inductive Change (κ β : Type*) where
  | insert (k : κ) (b : β)
  | update (k : κ) (b : β)
  | remove (k : κ)
  deriving DecidableEq, Repr

/-- A database as its readers think of it: at most one value for a key. -/
abbrev Rows (κ β : Type*) := κ → Option β

/-- A database as it is kept. -/
abbrev Chains (ι κ β : Type*) := κ → List (Version ι β)

section Changes

variable [DecidableEq κ]

def Change.key : Change κ β → κ
  | .insert k _ => k
  | .update k _ => k
  | .remove k => k

def Change.value : Change κ β → Option β
  | .insert _ b => some b
  | .update _ b => some b
  | .remove _ => none

/-- The change of the database as readers think of it. -/
def Change.apply (db : Rows κ β) (ch : Change κ β) : Rows κ β := Function.update db ch.key ch.value

/-- The new chain of the row that is changed by transaction `t`. -/
def Change.chain (t : ι) (vs : List (Version ι β)) : Change κ β → List (Version ι β)
  | .insert _ b => [⟨t, none, b⟩]
  | .update _ b =>
    match vs with
    | [] => []
    | v :: vs => ⟨t, none, b⟩ :: { v with deleted := some t } :: vs
  | .remove _ =>
    match vs with
    | [] => []
    | v :: vs => { v with deleted := some t } :: vs

/-- The change of the chains. -/
def Change.store (t : ι) (cs : Chains ι κ β) (ch : Change κ β) : Chains ι κ β :=
  Function.update cs ch.key (ch.chain t (cs ch.key))

section Store

variable {t : ι} {cs : Chains ι κ β} {k : κ} {b : β} {v : Version ι β} {vs : List (Version ι β)}

theorem Change.store_update_nil (h : cs k = []) : (Change.update k b).store t cs = cs := by
  simp [Change.store, Change.key, Change.chain, h]

theorem Change.store_update_cons (h : cs k = v :: vs) : (Change.update k b).store t cs
    = Function.update cs k (⟨t, none, b⟩ :: { v with deleted := some t } :: vs) := by
  simp [Change.store, Change.key, Change.chain, h]

theorem Change.store_remove_nil (h : cs k = []) :
    (Change.remove k : Change κ β).store t cs = cs := by
  simp [Change.store, Change.key, Change.chain, h]

theorem Change.store_remove_cons (h : cs k = v :: vs) :
    (Change.remove k : Change κ β).store t cs
      = Function.update cs k ({ v with deleted := some t } :: vs) := by
  simp [Change.store, Change.key, Change.chain, h]

end Store

/-- The value of the newest version of a row, unless it is deleted. -/
def newest : List (Version ι β) → Option β
  | [] => none
  | v :: _ => if v.deleted.isSome then none else some v.value

theorem deleted_of_newest {v : Version ι β} {vs : List (Version ι β)}
    (h : newest (v :: vs) ≠ none) : v.deleted = none := by
  cases hdel : v.deleted with
  | none => rfl
  | some d => simp [newest, hdel] at h

/-- What the newest versions say. -/
def current (cs : Chains ι κ β) : Rows κ β := fun k => newest (cs k)

/-- Rows are inserted where there is none, and changed where there is one. -/
def Change.Fits (db : Rows κ β) : Change κ β → Prop
  | .insert k _ => db k = none
  | .update k _ => db k ≠ none
  | .remove k => db k ≠ none

/-- The row that a change inserts. -/
def Change.inserts (k : κ) : Change κ β → Prop
  | .insert k' _ => k = k'
  | _ => False

/-- The chains mention only transactions in `K`, and only the newest version of a row may be
live. -/
structure Sound (K : ι → Prop) (cs : Chains ι κ β) : Prop where
  known : ∀ k, ∀ v ∈ cs k, K v.created ∧ ∀ d, v.deleted = some d → K d
  closed : ∀ k, ∀ v ∈ (cs k).tail, v.deleted ≠ none

variable {K K' : ι → Prop} {S S' : ι → Bool} {t : ι} {cs : Chains ι κ β} {ch : Change κ β} {k : κ}

omit [DecidableEq κ] in
theorem Sound.mono (h : Sound K cs) (hK : ∀ x, K x → K' x) : Sound K' cs :=
  ⟨fun k v hv => ⟨hK _ (h.known k v hv).1, fun d hd => hK d ((h.known k v hv).2 d hd)⟩, h.closed⟩

omit [DecidableEq κ] in
theorem sound_empty : Sound K (fun _ => [] : Chains ι κ β) :=
  ⟨fun _ _ hv => absurd hv not_mem_nil, fun _ _ hv => absurd hv not_mem_nil⟩

omit [DecidableEq κ] in
theorem Sound.lookup_congr (h : Sound K cs) (hS : ∀ x, K x → S x = S' x) (k : κ) :
    lookup S (cs k) = lookup S' (cs k) :=
  Versions.lookup_congr fun v hv => ⟨hS _ (h.known k v hv).1, fun d hd => hS d ((h.known k v hv).2 d hd)⟩

omit [DecidableEq κ] in
/-- **A reader that sees every transaction** reads the newest versions. -/
theorem Sound.lookup_all (h : Sound K cs) (hS : ∀ x, K x → S x = true) (k : κ) :
    lookup S (cs k) = current cs k := by
  have hknown := h.known k
  have hclosed := h.closed k
  unfold current
  cases hcs : cs k with
  | nil => rfl
  | cons v vs =>
    rw [hcs] at hknown hclosed
    obtain ⟨hc, hd⟩ := hknown v mem_cons_self
    rw [lookup_cons, newest]
    cases hdel : v.deleted with
    | none => simp [Version.visible, hdel, hS _ hc]
    | some d =>
      -- the older versions are all deleted
      have hrest : lookup S vs = none := by
        refine lookup_eq_none fun u hu => ?_
        obtain ⟨e, he⟩ := Option.ne_none_iff_exists'.mp (hclosed u hu)
        exact ⟨e, he, hS e ((hknown u (mem_cons_of_mem v hu)).2 e he)⟩
      simp [Version.visible, hdel, hS d (hd d hdel), hrest]

omit [DecidableEq κ] in
/-- A chain after a change mentions the writer and those it mentioned before. -/
theorem Change.known_chain (ht : K t) {vs : List (Version ι β)}
    (h : ∀ v ∈ vs, K v.created ∧ ∀ d, v.deleted = some d → K d) (ch : Change κ β) :
    ∀ v ∈ ch.chain t vs, K v.created ∧ ∀ d, v.deleted = some d → K d := by
  cases ch with
  | insert k b => simp [Change.chain, ht]
  | update k b =>
    cases vs with
    | nil => simp [Change.chain]
    | cons v vs =>
      simp only [mem_cons, forall_eq_or_imp] at h
      simp only [Change.chain, mem_cons, forall_eq_or_imp]
      exact ⟨⟨ht, by simp⟩, ⟨h.1.1, by simp [ht]⟩, h.2⟩
  | remove k =>
    cases vs with
    | nil => simp [Change.chain]
    | cons v vs =>
      simp only [mem_cons, forall_eq_or_imp] at h
      simp only [Change.chain, mem_cons, forall_eq_or_imp]
      exact ⟨⟨h.1.1, by simp [ht]⟩, h.2⟩

omit [DecidableEq κ] in
/-- Behind the newest version, a change leaves only deleted versions. -/
theorem Change.closed_chain {vs : List (Version ι β)} (h : ∀ v ∈ vs.tail, v.deleted ≠ none)
    (ch : Change κ β) : ∀ v ∈ (ch.chain t vs).tail, v.deleted ≠ none := by
  cases ch with
  | insert k b => simp [Change.chain]
  | update k b =>
    cases vs with
    | nil => simp [Change.chain]
    | cons v vs => simpa [Change.chain] using h
  | remove k =>
    cases vs with
    | nil => simp [Change.chain]
    | cons v vs => exact h

/-- The chains after a change mention the writer, and are as closed as before. -/
theorem Sound.store (h : Sound K cs) (ht : K t) (ch : Change κ β) : Sound K (ch.store t cs) := by
  refine ⟨fun k => ?_, fun k => ?_⟩
  · by_cases hk : k = ch.key
    · rw [hk, Change.store, Function.update_self]
      exact ch.known_chain ht (h.known ch.key)
    · rw [Change.store, Function.update_of_ne hk]
      exact h.known k
  · by_cases hk : k = ch.key
    · rw [hk, Change.store, Function.update_self]
      exact ch.closed_chain (h.closed ch.key)
    · rw [Change.store, Function.update_of_ne hk]
      exact h.closed k

/-- **The writer reads its own changes.** -/
theorem Change.current_store (hfits : ch.Fits (current cs)) :
    current (ch.store t cs) = ch.apply (current cs) := by
  funext k
  unfold current Change.store Change.apply
  by_cases hk : k = ch.key
  · subst hk
    rw [Function.update_self, Function.update_self]
    cases ch with
    | insert k b => rfl
    | update k b =>
      simp only [Change.Fits, current] at hfits
      cases hcs : cs k with
      | nil => simp [hcs, newest] at hfits
      | cons v vs => simp [Change.chain, Change.key, Change.value, hcs, newest]
    | remove k =>
      simp only [Change.chain, Change.key, Change.value]
      cases cs k with
      | nil => rfl
      | cons v vs => rfl
  · rw [Function.update_of_ne hk, Function.update_of_ne hk]

/-- **A reader that does not see the writer** reads on as before, except that it loses the row
that is inserted. -/
theorem Change.lookup_store_blind (ht : S t = false) (hfits : ch.Fits (current cs)) (k : κ) :
    (ch.inserts k → lookup S (ch.store t cs k) = none) ∧
      (¬ ch.inserts k → lookup S (ch.store t cs k) = lookup S (cs k)) := by
  by_cases hk : k = ch.key
  · subst hk
    -- the newest version, live until now, is still the one to read
    have hsame : ∀ {v : Version ι β} {vs : List (Version ι β)}, current cs ch.key ≠ none →
        cs ch.key = v :: vs →
        ({ v with deleted := some t } : Version ι β).visible S = v.visible S := by
      intro v vs hlive hcs
      have hv : v.deleted = none := deleted_of_newest (by rw [← hcs]; exact hlive)
      simp [Version.visible, hv, ht]
    rw [Change.store, Function.update_self]
    cases ch with
    | insert k b =>
      refine ⟨fun _ => ?_, fun hk => (hk rfl).elim⟩
      rw [Change.chain, lookup_cons]
      simp [Version.visible, ht]
    | update k b =>
      refine ⟨fun hk => hk.elim, fun _ => ?_⟩
      simp only [Change.chain, Change.key] at hsame ⊢
      cases hcs : cs k with
      | nil => rfl
      | cons v vs =>
        rw [lookup_cons, lookup_cons, hsame hfits hcs, lookup_cons]
        simp [Version.visible, ht]
    | remove k =>
      refine ⟨fun hk => hk.elim, fun _ => ?_⟩
      simp only [Change.chain, Change.key] at hsame ⊢
      cases hcs : cs k with
      | nil => rfl
      | cons v vs => rw [lookup_cons, lookup_cons, hsame hfits hcs]
  · rw [show ch.store t cs k = cs k from Function.update_of_ne hk _ _]
    refine ⟨fun hins => ?_, fun _ => rfl⟩
    cases ch with
    | insert k' b => exact (hk hins).elim
    | update k' b | remove k' => exact hins.elim

end Changes

/-! ## One writer at a time -/

section Serial

variable [DecidableEq κ]

/-- A transaction with its changes. -/
abbrev Writer (ι κ β : Type*) := ι × List (Change κ β)

/-- The database after these transactions, one after the other. -/
def replay (log : List (Writer ι κ β)) : Rows κ β :=
  (log.flatMap Prod.snd).foldl Change.apply (fun _ => none)

/-- Some of these transactions inserts row `k`. -/
def Inserted (log : List (Writer ι κ β)) (k : κ) : Prop := ∃ w ∈ log, ∃ ch ∈ w.2, ch.inserts k

/-- The chains with the changes of the writer, those without, the transactions committed so far
and the writer. -/
structure Serial (ι κ β : Type*) where
  cur : Chains ι κ β
  stable : Chains ι κ β
  log : List (Writer ι κ β)
  writer : Option (Writer ι κ β)

def Serial.empty : Serial ι κ β := ⟨fun _ => [], fun _ => [], [], none⟩

/-- The transactions whose changes are in `cur`. -/
def Serial.all (s : Serial ι κ β) : List (Writer ι κ β) := s.log ++ s.writer.toList

/-- The steps. `P` says at which keys rows may be inserted. -/
inductive Serial.Step (P : Chains ι κ β → κ → Prop) : Serial ι κ β → Serial ι κ β → Prop where
  | begin (s : Serial ι κ β) (t : ι) (hnone : s.writer = none) (hnew : t ∉ s.log.map Prod.fst) :
      Step P s { s with writer := some (t, []) }
  | change (s : Serial ι κ β) (t : ι) (own : List (Change κ β)) (ch : Change κ β)
      (hw : s.writer = some (t, own)) (hfits : ch.Fits (current s.cur))
      (hins : ∀ k, ch.inserts k → P s.cur k) :
      Step P s { s with cur := ch.store t s.cur, writer := some (t, own ++ [ch]) }
  | commit (s : Serial ι κ β) (w : Writer ι κ β) (hw : s.writer = some w) :
      Step P s { s with stable := s.cur, log := s.log ++ [w], writer := none }
  | rollback (s : Serial ι κ β) (w : Writer ι κ β) (hw : s.writer = some w) :
      Step P s { s with cur := s.stable, writer := none }

/-- The invariant: the newest versions are the database. -/
structure Serial.Inv (s : Serial ι κ β) : Prop where
  nodup : (s.all.map Prod.fst).Nodup
  cur_sound : Sound (fun x => x ∈ s.all.map Prod.fst) s.cur
  stable_sound : Sound (fun x => x ∈ s.log.map Prod.fst) s.stable
  cur_eq : current s.cur = replay s.all
  stable_eq : current s.stable = replay s.log
  idle : s.writer = none → s.cur = s.stable

variable {P : Chains ι κ β → κ → Prop} {S : ι → Bool} {s s' : Serial ι κ β} {w : Writer ι κ β}

omit [DecidableEq κ] in
theorem Serial.all_of_writer (hw : s.writer = some w) : s.all = s.log ++ [w] := by
  rw [Serial.all, hw]
  rfl

omit [DecidableEq κ] in
theorem Serial.all_of_idle (hw : s.writer = none) : s.all = s.log := by
  rw [Serial.all, hw]
  exact append_nil _

theorem replay_append_change (log : List (Writer ι κ β)) (t : ι) (own : List (Change κ β))
    (ch : Change κ β) : replay (log ++ [(t, own ++ [ch])]) = ch.apply (replay (log ++ [(t, own)])) := by
  simp [replay, foldl_append]

theorem Serial.inv_empty : (Serial.empty : Serial ι κ β).Inv :=
  ⟨nodup_nil, sound_empty, sound_empty, rfl, rfl, fun _ => rfl⟩

/-- The writer has an id of its own. -/
theorem Serial.Inv.writer_not_mem (h : s.Inv) (hw : s.writer = some w) :
    w.1 ∉ s.log.map Prod.fst := by
  have hnd := h.nodup
  rw [Serial.all_of_writer hw, map_append, nodup_append] at hnd
  exact fun hmem => hnd.2.2 _ hmem _ (by simp) rfl

theorem Serial.Inv.step (h : s.Inv) (hstep : Serial.Step P s s') : s'.Inv := by
  cases hstep with
  | begin t hnone hnew =>
    have hall : s.all = s.log := Serial.all_of_idle hnone
    have hcur := h.cur_sound
    have heq := h.cur_eq
    rw [hall] at hcur heq
    refine ⟨?_, hcur.mono fun x hx => ?_, h.stable_sound, ?_, h.stable_eq, fun hw => by cases hw⟩
    · have hnd := h.nodup
      rw [hall] at hnd
      rw [Serial.all_of_writer rfl, map_append, nodup_append]
      refine ⟨hnd, nodup_singleton _, fun a ha b hb heq => hnew ?_⟩
      have hb : b = t := by simpa using hb
      rw [← hb, ← heq]
      exact ha
    · rw [Serial.all_of_writer rfl, map_append]
      exact mem_append_left _ hx
    · rw [Serial.all_of_writer rfl, heq]
      simp [replay]
  | change t own ch hw hfits hins =>
    have hall : s.all = s.log ++ [(t, own)] := Serial.all_of_writer hw
    have hids : ({ s with cur := ch.store t s.cur, writer := some (t, own ++ [ch]) }
        : Serial ι κ β).all.map Prod.fst = s.all.map Prod.fst := by
      rw [hall, Serial.all_of_writer rfl]
      simp
    refine ⟨by rw [hids]; exact h.nodup, ?_, h.stable_sound, ?_, h.stable_eq, fun hw => by cases hw⟩
    · rw [hids]
      exact h.cur_sound.store (by rw [hall]; simp) ch
    · rw [Serial.all_of_writer rfl, replay_append_change, Change.current_store hfits, h.cur_eq, hall]
  | commit w hw =>
    have hall := Serial.all_of_writer hw
    have hcur := h.cur_sound
    have heq := h.cur_eq
    have hnd := h.nodup
    rw [hall] at hcur heq hnd
    have hall' := Serial.all_of_idle
      (s := { s with stable := s.cur, log := s.log ++ [w], writer := none }) rfl
    refine ⟨?_, ?_, hcur, ?_, heq, fun _ => rfl⟩
    · rw [hall']
      exact hnd
    · rw [hall']
      exact hcur
    · rw [hall']
      exact heq
  | rollback w hw =>
    have hall := Serial.all_of_writer hw
    have hnd := h.nodup
    rw [hall, map_append, nodup_append] at hnd
    have hall' := Serial.all_of_idle (s := { s with cur := s.stable, writer := none }) rfl
    refine ⟨?_, ?_, h.stable_sound, ?_, h.stable_eq, fun _ => rfl⟩
    · rw [hall']
      exact hnd.1
    · rw [hall']
      exact h.stable_sound
    · rw [hall']
      exact h.stable_eq

theorem Serial.Inv.run (h : s.Inv) (hrun : Relation.ReflTransGen (Serial.Step P) s s') :
    s'.Inv := by
  induction hrun with
  | refl => exact h
  | tail _ hstep ih => exact ih.step hstep

/-- **A reader that sees all transactions and the writer** reads their database. -/
theorem Serial.Inv.read_own (h : s.Inv) (hS : ∀ x ∈ s.all.map Prod.fst, S x = true) (k : κ) :
    lookup S (s.cur k) = replay s.all k := by
  rw [h.cur_sound.lookup_all hS, h.cur_eq]

/-! ## Readers of the past -/

section Past

variable [DecidableEq ι]

/-- The transactions among the first `n`. -/
def seesFirst (log : List (Writer ι κ β)) (n : Nat) (x : ι) : Bool :=
  decide (x ∈ (log.take n).map Prod.fst)

/-- Who sees exactly the first `n` transactions reads the database after them. -/
def Serial.Past (s : Serial ι κ β) : Prop :=
  ∀ n ≤ s.log.length, ∀ k, lookup (seesFirst s.log n) (s.cur k) = replay (s.log.take n) k ∧
    lookup (seesFirst s.log n) (s.stable k) = replay (s.log.take n) k

theorem Serial.past_empty : (Serial.empty : Serial ι κ β).Past := by
  intro n _ k
  simp [Serial.empty, replay]

omit [DecidableEq κ] in
theorem seesFirst_append {log : List (Writer ι κ β)} {n : Nat} (hn : n ≤ log.length)
    (new : List (Writer ι κ β)) :
    seesFirst (log ++ new) n = seesFirst log n ∧ (log ++ new).take n = log.take n := by
  have htake : (log ++ new).take n = log.take n := take_append_of_le_length hn
  refine ⟨?_, htake⟩
  funext x
  rw [seesFirst, htake, seesFirst]

omit [DecidableEq κ] in
theorem seesFirst_of_not_mem {log : List (Writer ι κ β)} {x : ι} (h : x ∉ log.map Prod.fst) (n : Nat) :
    seesFirst log n x = false := by
  rw [seesFirst, decide_eq_false_iff_not, map_take]
  exact fun hmem => h (mem_of_mem_take hmem)

/-- Inserts that start a chain where there is none leave the past alone. -/
theorem Serial.Past.step (hpast : s.Past) (h : s.Inv)
    (hstep : Serial.Step (fun cs k => cs k = []) s s') : s'.Past := by
  cases hstep with
  | begin t hnone hnew => exact hpast
  | change t own ch hw hfits hins =>
    intro n hn k
    refine ⟨?_, (hpast n hn k).2⟩
    obtain ⟨hlost, hkept⟩ := ch.lookup_store_blind
      (seesFirst_of_not_mem (h.writer_not_mem hw) n) hfits k
    by_cases hk : ch.inserts k
    · rw [hlost hk, ← (hpast n hn k).1, hins k hk]
      rfl
    · rw [hkept hk]
      exact (hpast n hn k).1
  | commit w hw =>
    have hall := Serial.all_of_writer hw
    have hread : ∀ n ≤ (s.log ++ [w]).length, ∀ k,
        lookup (seesFirst (s.log ++ [w]) n) (s.cur k) = replay ((s.log ++ [w]).take n) k := by
      intro n hn k
      by_cases hlast : n ≤ s.log.length
      · obtain ⟨hsees, htake⟩ := seesFirst_append hlast [w]
        rw [hsees, htake]
        exact (hpast n hlast k).1
      · -- all of them: the newest versions
        have hfull : (s.log ++ [w]).take n = s.log ++ [w] :=
          take_of_length_le (by simp at hn ⊢; omega)
        rw [hfull, ← hall, ← h.cur_eq]
        refine h.cur_sound.lookup_all (fun x hx => ?_) k
        rw [hall] at hx
        rw [seesFirst, hall, hfull]
        simpa using hx
    exact fun n hn k => ⟨hread n hn k, hread n hn k⟩
  | rollback w hw => exact fun n hn k => ⟨(hpast n hn k).2, (hpast n hn k).2⟩

theorem Serial.Past.run (hpast : s.Past) (h : s.Inv)
    (hrun : Relation.ReflTransGen (Serial.Step (fun cs k => cs k = [])) s s') : s'.Past := by
  induction hrun with
  | refl => exact hpast
  | tail hrun hstep ih => exact ih.step (h.run hrun) hstep

/-- **A reader that sees the first `n` transactions** of the log reads the database after them,
whatever is done later. -/
theorem Serial.Past.read (hpast : s.Past) (h : s.Inv) {n : Nat} (hn : n ≤ s.log.length)
    (hS : ∀ x ∈ s.all.map Prod.fst, S x = seesFirst s.log n x) (k : κ) :
    lookup S (s.cur k) = replay (s.log.take n) k :=
  (h.cur_sound.lookup_congr hS k).trans (hpast n hn k).1

end Past

/-! ## Readers and later inserts -/

omit [DecidableEq κ] in
theorem inserted_append_change {log : List (Writer ι κ β)} {t : ι} {own : List (Change κ β)}
    {ch : Change κ β} {k : κ} : Inserted (log ++ [(t, own ++ [ch])]) k ↔
      Inserted (log ++ [(t, own)]) k ∨ ch.inserts k := by
  unfold Inserted
  constructor
  · rintro ⟨w, hw, ch', hch, hk⟩
    rcases mem_append.mp hw with hw | hw
    · exact Or.inl ⟨w, mem_append_left _ hw, ch', hch, hk⟩
    · rw [mem_singleton.mp hw] at hch
      rcases mem_append.mp hch with hch | hch
      · exact Or.inl ⟨_, mem_append_right _ (mem_singleton_self _), ch', hch, hk⟩
      · rw [mem_singleton.mp hch] at hk
        exact Or.inr hk
  · rintro (⟨w, hw, ch', hch, hk⟩ | hk)
    · rcases mem_append.mp hw with hw | hw
      · exact ⟨w, mem_append_left _ hw, ch', hch, hk⟩
      · rw [mem_singleton.mp hw] at hch
        exact ⟨_, mem_append_right _ (mem_singleton_self _), ch',
          mem_append_left _ hch, hk⟩
    · exact ⟨_, mem_append_right _ (mem_singleton_self _), ch,
        mem_append_right _ (mem_singleton_self _), hk⟩

/-- What a reader has left of the chains `old` after the transactions `new`. -/
def Left (S : ι → Bool) (old : Chains ι κ β) (new : List (Writer ι κ β)) (cs : Chains ι κ β) : Prop :=
  ∀ k, (Inserted new k → lookup S (cs k) = none) ∧
    (¬ Inserted new k → lookup S (cs k) = lookup S (old k))

omit [DecidableEq κ] in
/-- The reader has everything left if none of its rows was inserted. -/
theorem Left.same_iff {old cs : Chains ι κ β} {new : List (Writer ι κ β)} (h : Left S old new cs) :
    (∀ k, lookup S (cs k) = lookup S (old k)) ↔
      ∀ k b, lookup S (old k) = some b → ¬ Inserted new k := by
  constructor
  · intro hsame k b hb hins
    have hlost := (h k).1 hins
    rw [hsame, hb] at hlost
    cases hlost
  · intro hnot k
    by_cases hins : Inserted new k
    · cases hb : lookup S (old k) with
      | none => exact (h k).1 hins
      | some b => exact absurd hins (hnot k b hb)
    · exact (h k).2 hins

/-- **A reader of an earlier state**, which sees none of the later writers, has lost exactly the
rows that were inserted since. -/
theorem Serial.left_of_run (h : s.Inv) (hidle : s.writer = none)
    (hS : ∀ x, S x = true → x ∈ s.log.map Prod.fst)
    (hrun : Relation.ReflTransGen (Serial.Step P) s s') :
    ∃ new, s'.log = s.log ++ new ∧ Left S s.cur new s'.stable ∧
      Left S s.cur (new ++ s'.writer.toList) s'.cur := by
  induction hrun with
  | refl =>
    have hsame : Left S s.cur [] s.cur := fun k => ⟨fun ⟨_, hw, _⟩ => absurd hw not_mem_nil, fun _ => rfl⟩
    exact ⟨[], (append_nil _).symm, by rw [← h.idle hidle]; exact hsame,
      by rw [hidle]; exact hsame⟩
  | @tail s1 s2 hrun hstep ih =>
    obtain ⟨new, hlog, hstable, hcur⟩ := ih
    have h1 := h.run hrun
    cases hstep with
    | begin t hnone hnew =>
      rw [hnone] at hcur
      refine ⟨new, hlog, hstable, fun k => ?_⟩
      have hno : Inserted (new ++ [(t, [])]) k ↔ Inserted new k := by simp [Inserted]
      obtain ⟨hlost, hkept⟩ := hcur k
      simp only [Option.toList_none, append_nil] at hlost hkept
      exact ⟨fun hk => hlost (hno.mp hk), fun hk => hkept fun h => hk (hno.mpr h)⟩
    | change t own ch hw hfits hins =>
      refine ⟨new, hlog, hstable, fun k => ?_⟩
      have hblind : S t = false := by
        cases ht : S t with
        | false => rfl
        | true =>
          have hmem := h1.writer_not_mem hw
          rw [hlog, map_append] at hmem
          exact absurd (mem_append_left _ (hS t ht)) hmem
      obtain ⟨hlost, hkept⟩ := ch.lookup_store_blind hblind hfits k
      obtain ⟨hlost', hkept'⟩ := hcur k
      rw [hw] at hlost' hkept'
      simp only [Option.toList_some] at hlost' hkept' ⊢
      by_cases hk : ch.inserts k
      · exact ⟨fun _ => hlost hk, fun hno => absurd (inserted_append_change.mpr (Or.inr hk)) hno⟩
      · refine ⟨fun hin => ?_, fun hno => ?_⟩
        · rw [hkept hk]
          exact hlost' ((inserted_append_change.mp hin).resolve_right hk)
        · rw [hkept hk]
          exact hkept' fun hin => hno (inserted_append_change.mpr (Or.inl hin))
    | commit w hw =>
      rw [hw] at hcur
      refine ⟨new ++ [w], by rw [hlog, append_assoc], hcur, ?_⟩
      rw [Option.toList_none, append_nil]
      exact hcur
    | rollback w hw =>
      refine ⟨new, hlog, hstable, ?_⟩
      rw [Option.toList_none, append_nil]
      exact hstable

end Serial

end Versions
