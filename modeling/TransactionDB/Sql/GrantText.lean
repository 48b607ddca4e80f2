import TransactionDB.Sql.Grants
import TransactionDB.Sql.Lexer

/-!
# TransactionDB — the object that GRANT and REVOKE name

`parse_grant_or_revoke` and the end of `tdb_parse` in `src/sql/tdb_parser.c`, and from there through
`parse_grant_object` to the answers of `tdb_acl_check`. The parser keeps the object as text, and the
text is taken apart again by the words for the kinds of object, which need not end where the name
starts. So a name that starts with such a word is taken for another object
(`grant_addresses_iff`).
-/

namespace Tdb.Sql

open Ddl List

/-! ## The parser -/

/-- The parser: the current token, and the text behind it. -/
structure P where
  cur : Token
  rest : Bytes

def advance (p : P) : P := ⟨(lexNext p.rest).1, (lexNext p.rest).2⟩

/-- The parser at the first token of a text. -/
def P.start (sql : Bytes) : P := ⟨(lexNext sql).1, (lexNext sql).2⟩

/-- `accept`. -/
def accept (p : P) (k : TokenKind) : P := if p.cur.kind = k then advance p else p

/-- `expect`. -/
def expect (p : P) (k : TokenKind) : Option P := if p.cur.kind = k then some (advance p) else none

/-- `span`: the text from one pointer to another, without blanks around it. -/
def span (start stop : Bytes) : Bytes :=
  ((start.take (start.length - stop.length)).dropWhile isSpace).rdropWhile isSpace

/-- The loop over the privileges: everything up to ON. -/
def skipToOn : Nat → P → P
  | 0, p => p
  | fuel + 1, p =>
    if p.cur.kind = .kw .onKw ∨ p.cur.kind = .eof ∨ p.cur.kind = .semi then p
    else skipToOn fuel (advance p)

/-- `parse_grant_or_revoke`. -/
def parseGrantOrRevoke (p : P) (isRevoke : Bool) : Option (Grant × P) := do
  let p := advance p
  let s0 := p.cur.z
  let p := skipToOn (p.rest.length + 1) p
  let privs := span s0 p.cur.z
  let p ← expect p (.kw .onKw)
  let o0 := p.cur.z
  let p :=
    if p.cur.kind = .kw .table ∨ p.cur.kind = .kw .view ∨ p.cur.kind = .kw .database ∨ p.cur.kind = .id
    then advance p else p
  let p := accept p .id
  let p ← if p.cur.kind = .dot then expect (advance p) .id else some p
  let object := span o0 p.cur.z
  let p := accept p (if isRevoke then .kw .fromKw else .kw .toKw)
  let grantee := p.cur.text
  return (⟨isRevoke, privs, object, some grantee⟩, accept p .id)

/-- `tdb_parse`, for these statements. -/
def parseGrant (sql : Bytes) : Option Grant := do
  let p := P.start sql
  let (g, p) ←
    if p.cur.kind = .kw .grant then parseGrantOrRevoke p false
    else if p.cur.kind = .kw .revoke then parseGrantOrRevoke p true
    else none
  if p.cur.kind = .semi ∨ p.cur.kind = .eof then some g else none

/-! ## Text made of words -/

/-- Words, each with the blanks behind it. -/
abbrev Words := List (Bytes × Bytes)

def text (ws : Words) : Bytes := ws.flatMap fun w => w.1 ++ w.2

/-- The words are words, and blanks keep them apart. -/
def Spelled : Words → Prop
  | [] => True
  | w :: ws => IsWord w.1 ∧ (∀ c ∈ w.2, isSpace c = true) ∧ (ws ≠ [] → w.2 ≠ []) ∧ Spelled ws

instance decidableSpelled : (ws : Words) → Decidable (Spelled ws)
  | [] => .isTrue trivial
  | w :: ws =>
    have := decidableSpelled ws
    inferInstanceAs (Decidable (IsWord w.1 ∧ (∀ c ∈ w.2, isSpace c = true) ∧ (ws ≠ [] → w.2 ≠ []) ∧ _))

/-- The parser at the first of the words. -/
def P.at : Words → P
  | [] => ⟨⟨.eof, [], 0⟩, []⟩
  | w :: ws => ⟨⟨keywordLookup w.1, text (w :: ws), w.1.length⟩, w.2 ++ text ws⟩

section Words

variable {w : Bytes × Bytes} {ws : Words}

theorem text_cons (w : Bytes × Bytes) (ws : Words) : text (w :: ws) = w.1 ++ (w.2 ++ text ws) := by
  simp [text, append_assoc]

theorem Spelled.tail (h : Spelled (w :: ws)) : Spelled ws := h.2.2.2

theorem lexNext_words {b : Bytes} (hb : ∀ c ∈ b, isSpace c = true) (h : Spelled ws) :
    lexNext (b ++ text ws) = ((P.at ws).cur, (P.at ws).rest) := by
  cases ws with
  | nil =>
    rw [show text [] = [] from rfl, append_nil]
    exact lexNext_blank hb
  | cons w ws =>
    obtain ⟨hw, hblank, hapart, -⟩ := h
    have hrest : ∀ c r, w.2 ++ text ws = c :: r → isSpace c = true := by
      intro c r heq
      cases hw2 : w.2 with
      | nil =>
        have hnil : ws = [] := by
          by_contra hne
          exact hapart hne hw2
        subst hnil
        rw [hw2] at heq
        cases heq
      | cons c' r' =>
        rw [hw2, cons_append] at heq
        cases heq
        exact hblank c (by rw [hw2]; exact mem_cons_self)
    rw [text_cons, lexNext_word hb hw hrest, P.at, text_cons]

theorem start_at (h : Spelled ws) : P.start (text ws) = P.at ws := by
  have hlex := lexNext_words (b := []) (by simp) h
  rw [nil_append] at hlex
  rw [P.start, hlex]

theorem advance_at (h : Spelled (w :: ws)) : advance (P.at (w :: ws)) = P.at ws := by
  have hlex := lexNext_words h.2.1 h.tail
  rw [advance, show (P.at (w :: ws)).rest = w.2 ++ text ws from rfl, hlex]

theorem keywordLookup_cases (w : Bytes) : keywordLookup w = .id ∨ ∃ k, keywordLookup w = .kw k := by
  unfold keywordLookup
  split
  · exact .inr ⟨_, rfl⟩
  · exact .inl rfl

theorem keywordLookup_congr {a b : Bytes} (h : sameName a b = true) : keywordLookup a = keywordLookup b := by
  unfold keywordLookup
  rw [show (fun k : String × Keyword => sameName a k.1.toUTF8.toList) =
    fun k => sameName b k.1.toUTF8.toList from funext fun k => sameName_congr_left h _]

/-- A byte of a word is no blank. -/
theorem IsWord.not_space {w : Bytes} (h : IsWord w) {c : UInt8} (hc : c ∈ w) : isSpace c = false := by
  have hid := h.chars c hc
  exact (forall_byte (p := fun c => isIdChar c = true → isSpace c = false) (by decide +kernel)) c hid

theorem rdropWhile_append_blank {x b : Bytes} (hb : ∀ c ∈ b, isSpace c = true) :
    (x ++ b).rdropWhile isSpace = x.rdropWhile isSpace := by
  induction b using List.reverseRecOn with
  | nil => rw [append_nil]
  | append_singleton b c ih =>
    rw [← append_assoc, rdropWhile_concat_pos _ _ _ (hb c (by simp)),
      ih fun c' hc' => hb c' (by simp [hc'])]

theorem IsWord.ne_nil {w : Bytes} (h : IsWord w) : w ≠ [] := by
  obtain ⟨c, r, rfl, -⟩ := h.start
  exact cons_ne_nil c r

theorem IsWord.dropWhile_append {w : Bytes} (h : IsWord w) (rest : Bytes) :
    (w ++ rest).dropWhile isSpace = w ++ rest := by
  obtain ⟨c, r, rfl, hc⟩ := h.start
  rw [cons_append, dropWhile_cons_of_neg (by simp [(isIdStart_not_trivia c hc).1])]

/-- What starts with no blank and ends with a word has no blanks around it. -/
theorem span_words {x : Bytes} (hx : ∀ r, (x ++ w.1 ++ r).dropWhile isSpace = x ++ w.1 ++ r)
    (h : Spelled (w :: ws)) : span (x ++ text (w :: ws)) (text ws) = x ++ w.1 := by
  obtain ⟨hw, hb, -⟩ := h
  have htext : x ++ text (w :: ws) = x ++ w.1 ++ w.2 ++ text ws := by simp [text_cons]
  rw [span, htext, length_append, Nat.add_sub_cancel, take_left' rfl, hx, rdropWhile_append_blank hb,
    rdropWhile_eq_self_iff]
  intro hne
  rw [getLast_append_of_right_ne_nil _ _ hw.ne_nil]
  simp [hw.not_space (getLast_mem hw.ne_nil)]

/-- One word. -/
theorem span_word (h : Spelled (w :: ws)) : span (text (w :: ws)) (text ws) = w.1 :=
  span_words (x := []) h.1.dropWhile_append h

/-- Two words. -/
theorem span_two {k n : Bytes × Bytes} (h : Spelled (k :: n :: ws)) :
    span (text (k :: n :: ws)) (text ws) = k.1 ++ k.2 ++ n.1 := by
  have hspan := span_words (x := k.1 ++ k.2) (fun r => by simp only [append_assoc]; exact h.1.dropWhile_append _)
    h.tail
  rwa [append_assoc, ← text_cons] at hspan

end Words

/-! ## What is parsed -/

section Parse

variable {w g p on k n dir u : Bytes × Bytes} {ws : Words}

@[simp] theorem kind_at (w : Bytes × Bytes) (ws : Words) :
    (P.at (w :: ws)).cur.kind = keywordLookup w.1 := rfl

@[simp] theorem kind_at_nil : (P.at []).cur.kind = .eof := rfl

@[simp] theorem z_at (ws : Words) : (P.at ws).cur.z = text ws := by cases ws <;> rfl

@[simp] theorem text_at (w : Bytes × Bytes) (ws : Words) : (P.at (w :: ws)).cur.text = w.1 := by
  simp [Token.text, P.at, text_cons]

theorem accept_at (h : Spelled (w :: ws)) {kind : TokenKind} (hk : keywordLookup w.1 = kind) :
    accept (P.at (w :: ws)) kind = P.at ws := by
  rw [accept, kind_at, if_pos hk, advance_at h]

theorem accept_at_other {kind : TokenKind} (hk : keywordLookup w.1 ≠ kind) :
    accept (P.at (w :: ws)) kind = P.at (w :: ws) := by
  rw [accept, kind_at, if_neg hk]

theorem expect_at (h : Spelled (w :: ws)) {kind : TokenKind} (hk : keywordLookup w.1 = kind) :
    expect (P.at (w :: ws)) kind = some (P.at ws) := by
  rw [expect, kind_at, if_pos hk, advance_at h]

theorem keywordLookup_mark (w : Bytes) : keywordLookup w ≠ .eof ∧ keywordLookup w ≠ .semi ∧
    keywordLookup w ≠ .dot := by
  rcases keywordLookup_cases w with h | ⟨k, h⟩
  · simp [h]
  · simp [h]

/-- The privilege is one word. -/
theorem skipToOn_at (h : Spelled (p :: on :: ws)) (hp : keywordLookup p.1 ≠ .kw .onKw)
    (hon : keywordLookup on.1 = .kw .onKw) :
    skipToOn ((P.at (p :: on :: ws)).rest.length + 1) (P.at (p :: on :: ws)) = P.at (on :: ws) := by
  obtain ⟨c, r, heq, -⟩ := h.tail.1.start
  obtain ⟨m, hm⟩ : ∃ m, (P.at (p :: on :: ws)).rest.length + 1 = m + 2 := by
    refine ⟨p.2.length + (r ++ (on.2 ++ text ws)).length, ?_⟩
    rw [show (P.at (p :: on :: ws)).rest = p.2 ++ text (on :: ws) from rfl, text_cons, heq]
    simp only [length_append, length_cons]
    omega
  have hmark := keywordLookup_mark p.1
  rw [hm, skipToOn, kind_at, if_neg (by simp [hp, hmark]), advance_at h, skipToOn, kind_at,
    if_pos (.inl hon)]

section Words

-- the object is one word, or a word for the kind and a word
variable (isRevoke : Bool) (object : Words) (h : Spelled (g :: p :: on :: object ++ [dir, u]))
  (hp : keywordLookup p.1 ≠ .kw .onKw) (hon : keywordLookup on.1 = .kw .onKw)
  (hdir : keywordLookup dir.1 = .kw (if isRevoke then .fromKw else .toKw))
  (hu : keywordLookup u.1 = .id)
  (hobject : (∃ n, object = [n] ∧ keywordLookup n.1 = .id) ∨
    ∃ k n, object = [k, n] ∧ keywordLookup k.1 ∈ [.kw .table, .kw .view, .kw .database, TokenKind.id] ∧
      keywordLookup n.1 = .id)

include h hp hon hdir hu hobject

theorem parse_object :
    parseGrantOrRevoke (P.at (g :: p :: on :: object ++ [dir, u])) isRevoke =
      some (⟨isRevoke, p.1, span (text (object ++ [dir, u])) (text [dir, u]), some u.1⟩, P.at []) := by
  have hg := h
  simp only [cons_append] at h hg ⊢
  have hpriv : span (text (p :: on :: (object ++ [dir, u]))) (text (on :: (object ++ [dir, u]))) = p.1 :=
    span_word h.tail
  have hend : Spelled [dir, u] := by
    rcases hobject with ⟨n, rfl, -⟩ | ⟨k, n, rfl, -⟩
    · exact h.tail.tail.tail.tail
    · exact h.tail.tail.tail.tail.tail
  have hdir' : keywordLookup dir.1 = if isRevoke then .kw .fromKw else .kw .toKw := by
    rw [hdir]
    cases isRevoke <;> rfl
  have hmark := keywordLookup_mark dir.1
  have hnotid : keywordLookup dir.1 ≠ .id := by simp [hdir]
  rw [parseGrantOrRevoke, advance_at hg]
  simp only [z_at, skipToOn_at h.tail hp hon, expect_at h.tail.tail hon, hpriv, Option.bind_eq_bind,
    Option.bind_some]
  -- the words of the object are passed, and nothing else
  have hskip : accept (if (P.at (object ++ [dir, u])).cur.kind = .kw .table ∨
      (P.at (object ++ [dir, u])).cur.kind = .kw .view ∨
      (P.at (object ++ [dir, u])).cur.kind = .kw .database ∨ (P.at (object ++ [dir, u])).cur.kind = .id
      then advance (P.at (object ++ [dir, u])) else P.at (object ++ [dir, u])) .id = P.at [dir, u] := by
    rcases hobject with ⟨n, rfl, hn⟩ | ⟨k, n, rfl, hk, hn⟩
    · simp only [cons_append, nil_append] at h ⊢
      rw [kind_at, if_pos (by simp [hn]), advance_at h.tail.tail.tail, accept_at_other hnotid]
    · simp only [cons_append, nil_append] at h ⊢
      rw [kind_at, if_pos (by simpa using hk), advance_at h.tail.tail.tail,
        accept_at h.tail.tail.tail.tail hn]
  simp only [hskip, kind_at, if_neg hmark.2.2, z_at, accept_at hend hdir', text_at,
    accept_at hend.tail hu]
  rfl

theorem parseGrant_words (hg : keywordLookup g.1 = .kw (if isRevoke then .revoke else .grant)) :
    parseGrant (text (g :: p :: on :: object ++ [dir, u])) =
      some ⟨isRevoke, p.1, span (text (object ++ [dir, u])) (text [dir, u]), some u.1⟩ := by
  have hparse := parse_object isRevoke object h hp hon hdir hu hobject
  simp only [cons_append] at h hparse ⊢
  rw [parseGrant, start_at h, kind_at, hg]
  cases isRevoke with
  | false | true => simp [hparse]

end Words

/-- A keyword for another kind is not taken for the kind, and what follows is not the end. -/
theorem parseGrant_other (isRevoke : Bool) {kw : Keyword} (h : Spelled [g, p, on, k, n, dir, u])
    (hg : keywordLookup g.1 = .kw (if isRevoke then .revoke else .grant))
    (hp : keywordLookup p.1 ≠ .kw .onKw) (hon : keywordLookup on.1 = .kw .onKw)
    (hk : keywordLookup k.1 = .kw kw) (hkw : kw ∉ [Keyword.table, .view, .database, .toKw, .fromKw]) :
    parseGrant (text [g, p, on, k, n, dir, u]) = none := by
  simp only [mem_cons, not_mem_nil, or_false, not_or] at hkw
  have hparse : ∃ gr, parseGrantOrRevoke (P.at [g, p, on, k, n, dir, u]) isRevoke =
      some (gr, P.at [k, n, dir, u]) := by
    rw [parseGrantOrRevoke, advance_at h]
    simp only [z_at, skipToOn_at h.tail hp hon, expect_at h.tail.tail hon, Option.bind_eq_bind,
      Option.bind_some, kind_at, hk, TokenKind.kw.injEq, hkw, reduceCtorEq, or_self, if_false]
    have hnotid : keywordLookup k.1 ≠ .id := by simp [hk]
    have hnotdir : keywordLookup k.1 ≠ if isRevoke then .kw .fromKw else .kw .toKw := by
      cases isRevoke <;> simp [hk, hkw]
    simp only [accept_at_other hnotid, kind_at, hk, reduceCtorEq, if_false,
      accept_at_other hnotdir]
    exact ⟨_, rfl⟩
  obtain ⟨gr, hparse⟩ := hparse
  rw [parseGrant, start_at h, kind_at, hg]
  cases isRevoke with
  | false | true => simp [hparse, hk]

end Parse

/-! ## The object that is addressed -/

/-- What a GRANT or REVOKE for an object is for: the answers for other objects are what they were, and
the user has the privilege, or no entry is left that the statement revokes. -/
structure Addresses (old new : List AclEntry) (isRevoke : Bool) (user priv : Bytes) (kind : UInt8)
    (object : Bytes) : Prop where
  elsewhere : ∀ k o, ¬ (k = kind ∧ sameName o object = true) → ∀ other q,
    aclCheck new (some other) q k o = aclCheck old (some other) q k o
  here : if isRevoke then ∀ e ∈ new, revokes (some user) (some priv) kind (some object) e = false
    else aclCheck new (some user) priv kind object = true

/-- The words for the kinds, as a name may start with them. -/
def StartsWithKind (name : Bytes) : Prop := ∃ k ∈ aclKinds, sameName (name.take k.1.length) k.1 = true

instance (name : Bytes) : Decidable (StartsWithKind name) :=
  inferInstanceAs (Decidable (∃ k ∈ aclKinds, sameName (name.take k.1.length) k.1 = true))

/-- GRANT or REVOKE as text: parsed, then executed. -/
def execText {σ : Type} (E : DdlEngine σ) (d : State σ) (sql : Bytes) : Option (Result σ) :=
  (parseGrant sql).map (execGrant E d)

section Object

variable {σ : Type} {E : DdlEngine σ} {d : State σ} {isRevoke : Bool} {kind : UInt8}
  {user priv object src : Bytes} {acl : List AclEntry}

theorem splitPrivs_word (h : IsWord priv) : splitPrivs priv = [priv.map upperAscii] := by
  have hsep : ∀ c ∈ priv, (isSpace c || decide (c = 44)) = false := by
    intro c hc
    have hcomma : isIdChar c = true → c ≠ 44 :=
      forall_byte (p := fun c => isIdChar c = true → c ≠ 44) (by decide +kernel) c
    simp [h.not_space hc, hcomma (h.chars c hc)]
  rw [splitPrivs, splitOnP_eq_singleton hsep]
  simp [h.ne_nil]

/-- A filter does not tell equal names apart. -/
theorem matchText_want {x y : Bytes} (h : sameName x y = true) (wild actual : Option Bytes) :
    matchText wild (some x) actual = matchText wild (some y) actual := by
  have hsame : sameName x = sameName y := funext (sameName_congr_left h)
  cases x with
  | nil =>
    rw [sameName_comm, sameName_nil_iff] at h
    rw [h]
  | cons c x =>
    cases y with
    | nil => exact absurd (sameName_nil_iff.mp h) (cons_ne_nil c x)
    | cons c' y => simp only [matchText, hsame]

/-- Equal entries give the same. -/
theorem gives_congr {a b : AclEntry} (h : a.folded = b.folded) {k : UInt8} {o q : Bytes} :
    a.gives user q k o = b.gives user q k o := by
  simp only [AclEntry.folded, Prod.mk.injEq] at h
  obtain ⟨hg, hp, hk, ho⟩ := h
  have hobj : matchObject a.object (some o) = matchObject b.object (some o) := by
    cases ha : a.object with
    | none =>
      cases hb : b.object with
      | none => rfl
      | some y => simp [ha, hb] at ho
    | some x =>
      cases hb : b.object with
      | none => simp [ha, hb] at ho
      | some y =>
        rw [ha, hb] at ho
        exact matchText_want (sameName_iff.mpr (by simpa using ho)) none _
  rw [AclEntry.gives, AclEntry.gives, hk, hobj, matchGrantee, matchGrantee, matchPriv, matchPriv,
    matchText_want (sameName_iff.mpr hg), matchText_want (sameName_iff.mpr hp)]

/-- An entry that is added gives what it gives, whether an equal one was there or not. -/
theorem aclCheck_aclAdd (e : AclEntry) (k : UInt8) (o q : Bytes) :
    aclCheck (aclAdd acl e) (some user) q k o = (e.gives user q k o || aclCheck acl (some user) q k o) := by
  rw [aclAdd_eq]
  split
  · rename_i hmem
    obtain ⟨a, ha, hfold⟩ := mem_map.mp hmem
    cases hgives : e.gives user q k o with
    | false => rfl
    | true =>
      rw [Bool.true_or, aclCheck_some, any_eq_true]
      exact ⟨a, ha, (gives_congr hfold).trans hgives⟩
  · rw [aclCheck_some, aclCheck_some, any_cons]

theorem sameName_upper_self (w : Bytes) : sameName (w.map upperAscii) w = true := by
  rw [sameName_comm, sameName_upper]
  exact sameName_refl w

theorem gives_self (user priv object : Bytes) (kind : UInt8) :
    AclEntry.gives ⟨user, priv.map upperAscii, kind, some object⟩ user priv kind object = true := by
  have hup := sameName_upper_self priv
  simp only [AclEntry.gives, Bool.and_eq_true]
  refine ⟨⟨⟨matchGrantee_iff.mpr (.inr (.inr (sameName_refl user))), matchPriv_iff.mpr (.inr (.inr hup))⟩,
    by simp [matchKind]⟩, ?_⟩
  cases object with
  | nil => rfl
  | cons c o => simp [matchObject, matchText, sameName_refl]

theorem addresses_aclAdd (hkind : kind ≠ 0) (hobj : object ≠ []) :
    Addresses acl (aclAdd acl ⟨user, priv.map upperAscii, kind, some object⟩) false user priv kind object where
  elsewhere := by
    intro k o hne other q
    rw [aclCheck_aclAdd, Bool.or_eq_right_iff_imp]
    intro hgives
    exact absurd (AclEntry.gives_object hkind hobj ⟨object, rfl, sameName_refl object⟩ hgives) hne
  here := by
    simp only [Bool.false_eq_true, if_false]
    rw [aclCheck_aclAdd, gives_self, Bool.true_or]

theorem addresses_aclRevoke (hkind : kind ≠ 0) (hobj : object ≠ []) :
    Addresses acl (aclRevoke acl (some user) (some (priv.map upperAscii)) kind (some object)) true user priv
      kind object where
  elsewhere := fun _ _ hne other q => aclRevoke_elsewhere hkind hobj hne other q
  here := by
    simp only [if_true]
    intro e he
    have hkept := (mem_filter.mp he).2
    have hup := matchText_want (sameName_upper_self priv) (some "ALL".toUTF8.toList) (some e.priv)
    rw [revokes, matchPriv, hup] at hkept
    rw [Bool.not_eq_true'] at hkept
    exact hkept

/-- A statement with one privilege, on the list. -/
theorem execGrant_word (gr : Grant) (hpriv : IsWord gr.privs) (hobj : (parseGrantObject gr.object).2 ≠ []) :
    (execGrant E d gr).db.acl =
      if gr.revoke then
        aclRevoke d.acl (some gr.user) (some (gr.privs.map upperAscii)) (parseGrantObject gr.object).1
          (some (parseGrantObject gr.object).2)
      else aclAdd d.acl ⟨gr.user, gr.privs.map upperAscii, (parseGrantObject gr.object).1,
        some (parseGrantObject gr.object).2⟩ := by
  cases hrev : gr.revoke with
  | true => exact execGrant_revoke hrev (splitPrivs_word hpriv) hobj
  | false =>
    have hone : (grantOne E d gr.user (parseGrantObject gr.object).1 (parseGrantObject gr.object).2
        (gr.privs.map upperAscii)).2.acl = aclAdd d.acl ⟨gr.user, (gr.privs.map upperAscii).map upperAscii,
          (parseGrantObject gr.object).1, some (parseGrantObject gr.object).2⟩ :=
      congrArg (fun m => m.1.acl) (grantOne_mem d (parseGrantObject_kind gr.object) _)
    have hup : (gr.privs.map upperAscii).map upperAscii = gr.privs.map upperAscii := by
      simp [Function.comp_def, upperAscii_upperAscii]
    rw [hup] at hone
    simp only [Bool.false_eq_true, if_false]
    rw [← hone]
    simp only [execGrant, if_neg hobj, hrev, Bool.false_eq_true, if_false, splitPrivs_word hpriv, eachPriv,
      Grant.user, publicName]
    split
    · rename_i heq
      rw [heq]
      rfl
    · rename_i heq
      rw [heq]
      rfl

theorem addresses_execGrant (E : DdlEngine σ) (d : State σ) (gr : Grant) (hpriv : IsWord gr.privs)
    (hobj : (parseGrantObject gr.object).2 ≠ []) :
    Addresses d.acl (execGrant E d gr).db.acl gr.revoke gr.user gr.privs (parseGrantObject gr.object).1
      (parseGrantObject gr.object).2 := by
  rw [execGrant_word gr hpriv hobj]
  cases hrev : gr.revoke with
  | true => exact addresses_aclRevoke (parseGrantObject_kind gr.object) hobj
  | false => exact addresses_aclAdd (parseGrantObject_kind gr.object) hobj

/-- A name that starts with no word for a kind. -/
theorem parseGrantObject_bare {n : Bytes} (hn : IsWord n) (h : ¬ StartsWithKind n) :
    parseGrantObject n = (aclTable, n) := by
  have hdrop : n.dropWhile isSpace = n := by simpa using hn.dropWhile_append []
  have hnone : (aclKinds.find? fun k => sameName (n.take k.1.length) k.1) = none := by
    rw [find?_eq_none]
    exact fun k hk hsame => h ⟨k, hk, hsame⟩
  rw [parseGrantObject, hdrop]
  simp only [hnone]

/-- A name that starts with a word for a kind loses it. -/
theorem parseGrantObject_starts {n : Bytes} (hn : IsWord n) (h : StartsWithKind n) :
    (parseGrantObject n).2.length < n.length := by
  have hdrop : n.dropWhile isSpace = n := by simpa using hn.dropWhile_append []
  obtain ⟨k, hk, hsame⟩ := h
  cases hfind : aclKinds.find? fun k => sameName (n.take k.1.length) k.1 with
  | none => exact absurd hsame (find?_eq_none.mp hfind k hk)
  | some k' =>
    have hlen : 0 < k'.1.length := by
      have hall : ∀ k ∈ aclKinds, 0 < k.1.length := by decide +kernel
      exact hall k' (mem_of_find?_eq_some hfind)
    have hpos : 0 < n.length := length_pos_iff.mpr hn.ne_nil
    rw [parseGrantObject, hdrop]
    simp only [hfind]
    have hle := (List.dropWhile_suffix (p := isSpace) (l := n.drop k'.1.length)).length_le
    rw [length_drop] at hle
    omega

/-- A word for a kind that the parser accepts, and a name. -/
theorem parseGrantObject_kind_name {K b n : Bytes} {k : Bytes × UInt8} (hk : k ∈ aclKinds)
    (hK : sameName K k.1 = true) (hspace : k.1 ≠ "TABLESPACE".toUTF8.toList) (hword : IsWord K)
    (hb : ∀ c ∈ b, isSpace c = true) (hn : IsWord n) :
    parseGrantObject (K ++ (b ++ n)) = (k.2, n) := by
  have hlen : k.1.length = K.length := by
    have hmap := congrArg List.length (sameName_iff.mp hK)
    simpa using hmap.symm
  have hhere : sameName ((K ++ (b ++ n)).take k.1.length) k.1 = true := by rw [hlen, take_left]; exact hK
  -- the words start with different letters, but for TABLE and TABLESPACE, and TABLE comes first
  have hfirst : ∀ k ∈ aclKinds, k.1 ≠ "TABLESPACE".toUTF8.toList → aclKinds.head? = some k ∨
      ∀ k' ∈ aclKinds, (k'.1.map lowerAscii).head? = (k.1.map lowerAscii).head? → k' = k := by decide +kernel
  have hfind : (aclKinds.find? fun k => sameName ((K ++ (b ++ n)).take k.1.length) k.1) = some k := by
    rcases hfirst k hk hspace with hhead | huniq
    · obtain ⟨ks, hks⟩ := head?_eq_some_iff.mp hhead
      rw [hks]
      exact find?_cons_of_pos hhere
    · cases hfind : aclKinds.find? fun k => sameName ((K ++ (b ++ n)).take k.1.length) k.1 with
      | none => exact absurd hhere (find?_eq_none.mp hfind k hk)
      | some k' =>
        have hmem := mem_of_find?_eq_some hfind
        have hsame := find?_some hfind
        have hpos : k'.1.length ≠ 0 := by
          have hall : ∀ k ∈ aclKinds, k.1.length ≠ 0 := by decide +kernel
          exact hall k' hmem
        rw [huniq k' hmem ?_]
        obtain ⟨c, r, rfl, -⟩ := hword.start
        obtain ⟨m, hm⟩ := Nat.exists_eq_succ_of_ne_zero hpos
        rw [← sameName_iff.mp hsame, ← sameName_iff.mp hK, hm]
        simp
  rw [parseGrantObject, hword.dropWhile_append]
  simp only [hfind]
  rw [hlen, drop_left, dropWhile_append_of_pos hb]
  simpa using hn.dropWhile_append []

end Object

/-! ## Every statement on an object -/

/-- A database that knows nothing but grants. -/
def grantState {σ : Type} [Inhabited σ] (acl : List AclEntry) : State σ :=
  let c := Catalog.create 4096 2
  ⟨{ c with cache := { c.cache with acl } }, [], default⟩

section Statement

variable {σ : Type} {n priv : Bytes}

/-- A name that loses the word for a kind is not addressed: before a GRANT nobody has the privilege, and
before a REVOKE the user has. -/
theorem not_addresses_starts [Inhabited σ] (E : DdlEngine σ) (isRevoke : Bool) (user : Bytes) (hpriv : IsWord priv)
    (hn : IsWord n) (h : StartsWithKind n) :
    ∃ d : State σ, ¬ Addresses d.acl (execGrant E d ⟨isRevoke, priv, n, some user⟩).db.acl isRevoke user priv
      aclTable n := by
  have hlen := parseGrantObject_starts hn h
  have hother : sameName n (parseGrantObject n).2 = false := by
    rw [Bool.eq_false_iff]
    intro hsame
    have hmap := congrArg List.length (sameName_iff.mp hsame)
    simp only [length_map] at hmap
    omega
  have hnil : (parseGrantObject n).2 = [] → ∀ d : State σ,
      (execGrant E d ⟨isRevoke, priv, n, some user⟩).db.acl = d.acl := by
    intro hnil d
    simp only [execGrant, if_pos hnil]
    rfl
  cases isRevoke with
  | false =>
    refine ⟨grantState [], fun haddr => ?_⟩
    have hhere : aclCheck _ (some user) priv aclTable n = true := haddr.here
    by_cases hobj : (parseGrantObject n).2 = []
    · rw [hnil hobj] at hhere
      cases hhere
    · rw [execGrant_word ⟨false, priv, n, some user⟩ hpriv hobj] at hhere
      simp only [Bool.false_eq_true, if_false] at hhere
      rw [aclCheck_aclAdd, Bool.or_eq_true] at hhere
      rcases hhere with hgives | hold
      · have hsame := (AclEntry.gives_object (parseGrantObject_kind n) hobj
          ⟨_, rfl, sameName_refl _⟩ hgives).2
        rw [hother] at hsame
        cases hsame
      · cases hold
  | true =>
    -- the entry for the name
    let e : AclEntry := ⟨user, priv.map upperAscii, aclTable, some n⟩
    refine ⟨grantState [e], fun haddr => ?_⟩
    have hhere : ∀ e ∈ _, revokes (some user) (some priv) aclTable (some n) e = false := haddr.here
    have hkept : e ∈ (execGrant E (grantState [e]) ⟨true, priv, n, some user⟩).db.acl := by
      by_cases hobj : (parseGrantObject n).2 = []
      · rw [hnil hobj]
        exact mem_singleton_self e
      · rw [execGrant_word ⟨true, priv, n, some user⟩ hpriv hobj]
        refine mem_filter.mpr ⟨mem_singleton_self e, ?_⟩
        rw [Bool.not_eq_true', Bool.eq_false_iff]
        intro hrev
        obtain ⟨-, o, ho, hsame⟩ := revokes_object (parseGrantObject_kind n) hobj hrev
        cases ho
        rw [sameName_comm, hother] at hsame
        cases hsame
    have hrevokes : revokes (some user) (some priv) aclTable (some n) e = true := by
      simp only [revokes, Bool.and_eq_true]
      refine ⟨⟨⟨matchGrantee_iff.mpr (.inr (.inr (sameName_refl user))),
        matchPriv_iff.mpr (.inr (.inr ?_))⟩, rfl⟩,
        (matchObject_some hn.ne_nil _).mpr ⟨n, rfl, sameName_refl n⟩⟩
      rw [sameName_upper]
      exact sameName_refl priv
    rw [hhere e hkept] at hrevokes
    cases hrevokes

end Statement

/-- **The object that GRANT and REVOKE address.** `GRANT p ON n TO u` addresses the table `n`, in every
database, just when `n` starts with no word for a kind. Every `GRANT p ON K n TO u` that the parser
accepts addresses the object `n` of kind `K`. -/
theorem grant_addresses_iff {σ : Type} [Inhabited σ] (E : DdlEngine σ) (isRevoke : Bool)
    (g p on n dir u : Bytes × Bytes) (h : Spelled [g, p, on, n, dir, u])
    (hg : keywordLookup g.1 = .kw (if isRevoke then .revoke else .grant))
    (hp : keywordLookup p.1 ≠ .kw .onKw) (hon : keywordLookup on.1 = .kw .onKw)
    (hn : keywordLookup n.1 = .id)
    (hdir : keywordLookup dir.1 = .kw (if isRevoke then .fromKw else .toKw))
    (hu : keywordLookup u.1 = .id) :
    ((∀ d : State σ, ∃ r, execText E d (text [g, p, on, n, dir, u]) = some r ∧
        Addresses d.acl r.db.acl isRevoke u.1 p.1 aclTable n.1) ↔ ¬ StartsWithKind n.1) ∧
      ∀ K : Bytes × Bytes, Spelled [g, p, on, K, n, dir, u] →
        ∀ kind ∈ aclKinds, sameName K.1 kind.1 = true →
          ∀ (d : State σ) (r : Result σ), execText E d (text [g, p, on, K, n, dir, u]) = some r →
            Addresses d.acl r.db.acl isRevoke u.1 p.1 kind.2 n.1 := by
  have hpw : IsWord p.1 := h.tail.1
  have hnw : IsWord n.1 := h.tail.tail.tail.1
  constructor
  · have hparse := parseGrant_words isRevoke [n] h hp hon hdir hu (.inl ⟨n, rfl, hn⟩) hg
    simp only [cons_append, nil_append, span_word h.tail.tail.tail] at hparse
    have hexec : ∀ d : State σ, execText E d (text [g, p, on, n, dir, u]) =
        some (execGrant E d ⟨isRevoke, p.1, n.1, some u.1⟩) := by
      intro d
      rw [execText, hparse]
      rfl
    simp only [hexec, Option.some.injEq, exists_eq_left']
    constructor
    · intro hall hstarts
      obtain ⟨d, hnot⟩ := not_addresses_starts E isRevoke u.1 hpw hnw hstarts
      exact hnot (hall d)
    · intro hstarts d
      have hobj := parseGrantObject_bare hnw hstarts
      have haddr := addresses_execGrant E d ⟨isRevoke, p.1, n.1, some u.1⟩ hpw
        (by rw [hobj]; exact hnw.ne_nil)
      rw [hobj] at haddr
      exact haddr
  · intro K hK kind hkind hsame d r hexec
    -- the words for the kinds that are keywords of the parser's list, or no keyword at all
    have hkw : ∀ kind ∈ aclKinds,
        (keywordLookup kind.1 ∈ [.kw .table, .kw .view, .kw .database, TokenKind.id] ∧
          kind.1 ≠ "TABLESPACE".toUTF8.toList) ∨
        ∃ kw ∈ [Keyword.index, .function, .procedure, .tablespace], keywordLookup kind.1 = .kw kw := by
      decide +kernel
    have hlookup := keywordLookup_congr hsame
    rcases hkw kind hkind with ⟨hmem, hspace⟩ | ⟨kw, hmem, hkw⟩
    · have hparse := parseGrant_words isRevoke [K, n] hK hp hon hdir hu
        (.inr ⟨K, n, rfl, by rw [hlookup]; exact hmem, hn⟩) hg
      simp only [cons_append, nil_append, span_two hK.tail.tail.tail] at hparse
      rw [execText, hparse, Option.map_some, Option.some.injEq] at hexec
      have hobj := parseGrantObject_kind_name hkind hsame hspace hK.tail.tail.tail.1
        hK.tail.tail.tail.2.1 hnw
      rw [← append_assoc] at hobj
      have haddr := addresses_execGrant E d ⟨isRevoke, p.1, K.1 ++ K.2 ++ n.1, some u.1⟩ hpw
        (by rw [hobj]; exact hnw.ne_nil)
      rw [hobj, hexec] at haddr
      exact haddr
    · have hnone := parseGrant_other isRevoke hK hg hp hon (hlookup.trans hkw)
        (by
          simp only [mem_cons, not_mem_nil, or_false] at hmem
          rcases hmem with rfl | rfl | rfl | rfl <;> decide)
      rw [execText, hnone] at hexec
      cases hexec

/-- A word and one blank. -/
def word (w : String) : Bytes × Bytes := (w.toUTF8.toList, [32])

/-- `GRANT SELECT ON orders TO u`. -/
theorem grant_addresses_orders :
    ∃ r, execText (idleEngine Unit) emptyState
        (text [word "GRANT", word "SELECT", word "ON", word "orders", word "TO", word "u"]) = some r ∧
      Addresses emptyState.acl r.db.acl false "u".toUTF8.toList "SELECT".toUTF8.toList aclTable
        "orders".toUTF8.toList := by
  have hiff := (grant_addresses_iff (idleEngine Unit) false (word "GRANT") (word "SELECT") (word "ON")
    (word "orders") (word "TO") (word "u") (by decide +kernel) (by decide +kernel) (by decide +kernel)
    (by decide +kernel) (by decide +kernel) (by decide +kernel) (by decide +kernel)).1
  exact hiff.mpr (by decide +kernel) emptyState

/-- **`GRANT SELECT ON tablet TO u`.** The user cannot read `tablet`, but a table `t`. -/
theorem grant_on_tablet :
    let d := (execText (idleEngine Unit) emptyState (text [word "GRANT", word "SELECT", word "ON",
      word "tablet", word "TO", word "u"])).map (·.db.acl)
    d.map (fun acl => (aclCheck acl (some "u".toUTF8.toList) "SELECT".toUTF8.toList aclTable
        "tablet".toUTF8.toList,
      aclCheck acl (some "u".toUTF8.toList) "SELECT".toUTF8.toList aclTable "t".toUTF8.toList)) =
      some (false, true) := by
  decide +kernel

end Tdb.Sql
