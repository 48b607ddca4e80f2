import TransactionDB.Lib.Pieces
import TransactionDB.Sql.Eval

/-!
# TransactionDB — the languages of LIKE and GLOB

`like_match` and `glob_match` of `src/sql/tdb_exec.c` go through pattern and text together and try the
tails of the text behind a wildcard. What they decide is a statement about the pattern alone: it is a
list of items, and the text is cut into pieces that fit them (`Pieces.Matches`).

* `likeItems` reads a LIKE pattern; every pattern is one.
* `GlobPattern` is the grammar of GLOB patterns, with `ClassBody` for what stands in brackets. A pattern
  with a bracket that is never closed is not in it.

Both matchers skip runs of wildcards and never try the empty tail behind one. That is right because the
next item, if there is one, is for a single byte (`matches_any_one`).
-/

namespace Tdb.Sql

open Pieces

/-! ## LIKE -/

/-- A byte of a pattern that is not escaped. -/
def likeItem (p : UInt8) : Item UInt8 :=
  if p = 37 then .any
  else .one fun c => p = 95 || lowerAscii p = lowerAscii c

/-- The items of a LIKE pattern; an escape byte at the end is an ordinary one. -/
def likeItems (esc : Option UInt8) : Bytes → List (Item UInt8)
  | [] => []
  | [p] => [likeItem p]
  | p :: p' :: pat =>
    if esc = some p then .one (fun c => lowerAscii p' = lowerAscii c) :: likeItems esc pat
    else likeItem p :: likeItems esc (p' :: pat)

theorem likeItems_percent {esc : Option UInt8} (hesc : esc ≠ some 37) (pat : Bytes) :
    likeItems esc (37 :: pat) = .any :: likeItems esc pat := by
  cases pat with
  | nil => simp [likeItems, likeItem]
  | cons p pat => simp [likeItems, likeItem, hesc]

/-- A pattern that does not begin with a percent sign begins with an item for one byte. -/
theorem likeItems_one (esc : Option UInt8) {p : UInt8} (hp : p ≠ 37) (pat : Bytes) :
    ∃ ok items, likeItems esc (p :: pat) = .one ok :: items := by
  cases pat with
  | nil => simp [likeItems, likeItem, hp]
  | cons p' pat =>
    by_cases hesc : esc = some p
    · simp [likeItems, hesc]
    · simp [likeItems, likeItem, hesc, hp]

/-- **LIKE decides its language**: `like_match` accepts the texts that can be cut into pieces for the
items of the pattern. -/
theorem like_match_iff (esc : Option UInt8) (pat str : Bytes) :
    likeMatch esc pat str = true ↔ Matches (likeItems esc pat) str := by
  induction pat using likeItems.induct esc generalizing str with
  | case1 => simp [likeMatch, likeItems]
  | case2 p =>
    by_cases hp : p = 37
    · simp [likeMatch, likeItems, likeItem, hp]
    · match str with
      | [] | [_] | _ :: _ :: _ => simp [likeMatch, likeItems, likeItem, hp]
  | case3 p p' pat hesc ih =>
    subst hesc
    cases str with
    | nil => simp [likeMatch, likeItems]
    | cons c str => simp [likeMatch, likeItems, ih]
  | case4 p p' pat hesc ih =>
    rw [likeItems, if_neg hesc]
    by_cases hp : p = 37
    · subst hp
      rw [show likeItem 37 = Item.any from rfl]
      by_cases hp' : p' = 37
      · -- a run of percent signs
        subst hp'
        rw [likeItems_percent hesc, matches_any_any, ← likeItems_percent hesc, ← ih]
        simp [likeMatch, hesc]
      · obtain ⟨ok, items, hitems⟩ := likeItems_one esc hp' pat
        rw [hitems, matches_any_one, ← hitems]
        simp [likeMatch, hesc, hp', ih]
    · cases str with
      | nil => simp [likeMatch, likeItem, hesc, hp]
      | cons c str => simp [likeMatch, likeItem, hesc, hp, ih]

/-! ## GLOB -/

/-- What a class lists: a byte, or the bytes between two. -/
inductive ClassElem where
  | member (b : UInt8)
  | range (lo hi : UInt8)

def ClassElem.has : ClassElem → UInt8 → Bool
  | .member b, c => c = b
  | .range lo hi, c => lo ≤ c && c ≤ hi

/-- The text of a class behind its bracket, and what stands behind the class. A bracket closes unless
it is the first byte; a byte and a dash are a range if another byte but the closing one follows. -/
inductive ClassBody : Bool → List ClassElem → Bytes → Bytes → Prop where
  | close (rest : Bytes) : ClassBody false [] (93 :: rest) rest
  | range {first : Bool} {lo hi : UInt8} {elems : List ClassElem} {text rest : Bytes}
      (hlo : lo = 93 → first = true) (hhi : hi ≠ 93) (h : ClassBody false elems text rest) :
      ClassBody first (.range lo hi :: elems) (lo :: 45 :: hi :: text) rest
  | member {first : Bool} {b : UInt8} {elems : List ClassElem} {text rest : Bytes}
      (hb : b = 93 → first = true) (hdash : ∀ hi t, text = 45 :: hi :: t → hi = 93)
      (h : ClassBody false elems text rest) : ClassBody first (.member b :: elems) (b :: text) rest

/-- The byte is in the class, or not in it if it is negated. -/
def classHas (neg : Bool) (elems : List ClassElem) (c : UInt8) : Bool := (elems.any (·.has c)) != neg

/-- The grammar of GLOB patterns. -/
inductive GlobPattern : Bytes → List (Item UInt8) → Prop where
  | nil : GlobPattern [] []
  | star {pat : Bytes} {items : List (Item UInt8)} (h : GlobPattern pat items) :
      GlobPattern (42 :: pat) (.any :: items)
  | question {pat : Bytes} {items : List (Item UInt8)} (h : GlobPattern pat items) :
      GlobPattern (63 :: pat) (.one (fun _ => true) :: items)
  | inClass {text rest : Bytes} {elems : List ClassElem} {items : List (Item UInt8)}
      (hneg : text.head? ≠ some 94) (hclass : ClassBody true elems text rest) (h : GlobPattern rest items) :
      GlobPattern (91 :: text) (.one (classHas false elems) :: items)
  | notInClass {text rest : Bytes} {elems : List ClassElem} {items : List (Item UInt8)}
      (hclass : ClassBody true elems text rest) (h : GlobPattern rest items) :
      GlobPattern (91 :: 94 :: text) (.one (classHas true elems) :: items)
  | byte {p : UInt8} {pat : Bytes} {items : List (Item UInt8)} (hp : p ≠ 42 ∧ p ≠ 63 ∧ p ≠ 91)
      (h : GlobPattern pat items) : GlobPattern (p :: pat) (.one (fun c => p = c) :: items)

section Class

variable {c x hi : UInt8} {first matched m : Bool} {text rest : Bytes}

/-- The class that stands here says whether the byte is in it. -/
def ClassSays (c : UInt8) (first matched : Bool) (text : Bytes) (m : Bool) (rest : Bytes) : Prop :=
  ∃ elems, ClassBody first elems text rest ∧ m = (matched || elems.any (·.has c))

theorem classSays_close (hx : x = 93 ∧ first = false) :
    ClassSays c first matched (x :: text) m rest ↔ matched = m ∧ text = rest := by
  obtain ⟨rfl, rfl⟩ := hx
  constructor
  · rintro ⟨elems, hbody, rfl⟩
    cases hbody with
    | close => simp
    | range hlo => exact absurd (hlo rfl) (by decide)
    | member hb => exact absurd (hb rfl) (by decide)
  · rintro ⟨rfl, rfl⟩
    exact ⟨[], .close _, by simp⟩

theorem classSays_range (hx : ¬ (x = 93 ∧ first = false)) (hhi : hi ≠ 93) :
    ClassSays c first matched (x :: 45 :: hi :: text) m rest ↔
      ClassSays c false (matched || (x ≤ c && c ≤ hi)) text m rest := by
  have hlo : x = 93 → first = true := by simpa using hx
  constructor
  · rintro ⟨elems, hbody, rfl⟩
    cases hbody with
    | close => exact absurd ⟨rfl, rfl⟩ hx
    | range _ _ h => exact ⟨_, h, by simp [ClassElem.has, Bool.or_assoc]⟩
    | member _ hdash => exact absurd (hdash _ _ rfl) hhi
  · rintro ⟨elems, hbody, rfl⟩
    exact ⟨_, .range hlo hhi hbody, by simp [ClassElem.has, Bool.or_assoc]⟩

theorem classSays_member (hx : ¬ (x = 93 ∧ first = false)) (hdash : ∀ hi t, text = 45 :: hi :: t → hi = 93) :
    ClassSays c first matched (x :: text) m rest ↔ ClassSays c false (matched || c = x) text m rest := by
  have hb : x = 93 → first = true := by simpa using hx
  constructor
  · rintro ⟨elems, hbody, rfl⟩
    cases hbody with
    | close => exact absurd ⟨rfl, rfl⟩ hx
    | range _ hhi => exact absurd (hdash _ _ rfl) hhi
    | member _ _ h => exact ⟨_, h, by simp [ClassElem.has, Bool.or_assoc]⟩
  · rintro ⟨elems, hbody, rfl⟩
    exact ⟨_, .member hb hdash hbody, by simp [ClassElem.has, Bool.or_assoc]⟩

/-- `globClass` reads a class and tests the byte on the way. -/
theorem globClass_iff : globClass c first matched text = some (m, rest) ↔
    ClassSays c first matched text m rest := by
  induction first, matched, text using globClass.induct c with
  | case1 first matched =>
    simp only [globClass, reduceCtorEq, false_iff]
    rintro ⟨elems, hbody, -⟩
    cases hbody
  | case2 first matched x dash hi text hx =>
    rw [globClass, if_pos hx, classSays_close hx]
    simp
  | case3 first matched x dash hi text hx hdash ih =>
    obtain ⟨rfl, hhi⟩ := hdash
    rw [globClass, if_neg hx, if_pos ⟨rfl, hhi⟩, ih, classSays_range hx hhi]
  | case4 first matched x dash hi text hx hdash ih =>
    rw [globClass, if_neg hx, if_neg hdash, ih, classSays_member hx]
    rintro hi' t heq
    cases heq
    simpa using hdash
  | case5 first matched x text hshort hx =>
    rw [globClass, if_pos hx, classSays_close hx]
    · simp
    · exact hshort
  | case6 first matched x text hshort hx ih =>
    rw [globClass, if_neg hx, ih, classSays_member hx]
    · exact fun hi t heq => (hshort _ _ _ heq).elim
    · exact hshort

end Class

theorem ClassBody.length_lt {first : Bool} {elems : List ClassElem} {text rest : Bytes}
    (h : ClassBody first elems text rest) : rest.length < text.length := by
  induction h with
  | close => simp
  | range _ _ _ ih | member _ _ _ ih => simp only [List.length_cons]; omega

/-! ### Patterns -/

/-- The pattern is one, and the text matches its items. -/
def GlobMatches (pat str : Bytes) : Prop := ∃ items, GlobPattern pat items ∧ Matches items str

section Patterns

variable {p c : UInt8} {pat text str : Bytes}

theorem globMatches_nil : GlobMatches [] str ↔ str = [] := by
  constructor
  · rintro ⟨items, hpat, hstr⟩
    cases hpat
    exact matches_nil.mp hstr
  · rintro rfl
    exact ⟨[], .nil, matches_nil.mpr rfl⟩

/-- A pattern that begins with no star begins with an item for one byte. -/
theorem globPattern_one {items : List (Item UInt8)} (hp : p ≠ 42) (h : GlobPattern (p :: pat) items) :
    ∃ ok rest, items = .one ok :: rest := by
  cases h with
  | star => exact absurd rfl hp
  | question | inClass | notInClass | byte => exact ⟨_, _, rfl⟩

theorem not_globMatches_one_nil (hp : p ≠ 42) : ¬ GlobMatches (p :: pat) [] := by
  rintro ⟨items, hpat, hstr⟩
  obtain ⟨ok, rest, rfl⟩ := globPattern_one hp hpat
  exact not_matches_one_nil hstr

/-- A run of stars is one star. -/
theorem glob_stars (pat str : Bytes) :
    (∃ items, GlobPattern pat items ∧ Matches (.any :: items) str) ↔
      ∃ items, GlobPattern (pat.dropWhile (· = 42)) items ∧ Matches (.any :: items) str := by
  induction pat with
  | nil => rfl
  | cons p pat ih =>
    by_cases hp : p = 42
    · subst hp
      rw [List.dropWhile_cons_of_pos (by simp), ← ih]
      constructor
      · rintro ⟨items, hpat, hstr⟩
        cases hpat with
        | star hpat => exact ⟨_, hpat, matches_any_any.mp hstr⟩
        | byte hp => exact absurd rfl hp.1
      · rintro ⟨items, hpat, hstr⟩
        exact ⟨_, .star hpat, matches_any_any.mpr hstr⟩
    · rw [List.dropWhile_cons_of_neg (by simpa using hp)]

theorem globMatches_star : GlobMatches (42 :: pat) str ↔ pat.dropWhile (· = 42) = [] ∨
    ∃ s ∈ str.tails, s ≠ [] ∧ GlobMatches (pat.dropWhile (· = 42)) s := by
  have hstar : GlobMatches (42 :: pat) str ↔
      ∃ items, GlobPattern pat items ∧ Matches (.any :: items) str := by
    constructor
    · rintro ⟨items, hpat, hstr⟩
      cases hpat with
      | star hpat => exact ⟨_, hpat, hstr⟩
      | byte hp => exact absurd rfl hp.1
    · rintro ⟨items, hpat, hstr⟩
      exact ⟨_, .star hpat, hstr⟩
  rw [hstar, glob_stars]
  cases hrest : pat.dropWhile (· = 42) with
  | nil => simpa using ⟨[], .nil, matches_any_last⟩
  | cons p pat' =>
    have hp : p ≠ 42 := by
      have hhead := List.head_dropWhile_not (l := pat) (· = 42) (by rw [hrest]; simp)
      simpa [hrest] using hhead
    simp only [reduceCtorEq, false_or]
    constructor
    · rintro ⟨items, hpat, hstr⟩
      obtain ⟨ok, rest, rfl⟩ := globPattern_one hp hpat
      obtain ⟨s, hs, hne, hstr⟩ := matches_any_one.mp hstr
      exact ⟨s, hs, hne, _, hpat, hstr⟩
    · rintro ⟨s, hs, -, items, hpat, hstr⟩
      exact ⟨items, hpat, matches_any.mpr ⟨s, hs, hstr⟩⟩

theorem globMatches_question : GlobMatches (63 :: pat) (c :: str) ↔ GlobMatches pat str := by
  constructor
  · rintro ⟨items, hpat, hstr⟩
    cases hpat with
    | question hpat => exact ⟨_, hpat, (matches_one_cons.mp hstr).2⟩
    | byte hp => exact absurd rfl hp.2.1
  · rintro ⟨items, hpat, hstr⟩
    exact ⟨_, .question hpat, matches_one_cons.mpr ⟨rfl, hstr⟩⟩

theorem globMatches_byte (hp : p ≠ 42 ∧ p ≠ 63 ∧ p ≠ 91) :
    GlobMatches (p :: pat) (c :: str) ↔ p = c ∧ GlobMatches pat str := by
  constructor
  · rintro ⟨items, hpat, hstr⟩
    cases hpat with
    | star => exact absurd rfl hp.1
    | question => exact absurd rfl hp.2.1
    | inClass | notInClass => exact absurd rfl hp.2.2
    | byte _ hpat =>
      obtain ⟨hc, hstr⟩ := matches_one_cons.mp hstr
      exact ⟨of_decide_eq_true hc, _, hpat, hstr⟩
  · rintro ⟨rfl, items, hpat, hstr⟩
    exact ⟨_, .byte hp hpat, matches_one_cons.mpr ⟨decide_eq_true rfl, hstr⟩⟩

/-- What stands in the brackets decides on the byte and leaves the rest of the pattern. -/
theorem globMatches_class (neg : Bool) (hneg : neg = false → text.head? ≠ some 94) :
    GlobMatches (91 :: (if neg then 94 :: text else text)) (c :: str) ↔
      ∃ m rest, globClass c true false text = some (m, rest) ∧ m ≠ neg ∧ GlobMatches rest str := by
  simp only [globClass_iff, ClassSays, Bool.false_or]
  constructor
  · rintro ⟨items, hpat, hstr⟩
    obtain ⟨elems, rest, items', hclass, hrest, rfl⟩ : ∃ elems rest items', ClassBody true elems text rest ∧
        GlobPattern rest items' ∧ items = .one (classHas neg elems) :: items' := by
      cases neg with
      | false =>
        cases hpat with
        | inClass _ hclass hpat => exact ⟨_, _, _, hclass, hpat, rfl⟩
        | notInClass => exact absurd rfl (hneg rfl)
        | byte hp => exact absurd rfl hp.2.2
      | true =>
        cases hpat with
        | inClass hhead => exact absurd rfl hhead
        | notInClass hclass hpat => exact ⟨_, _, _, hclass, hpat, rfl⟩
        | byte hp => exact absurd rfl hp.2.2
    obtain ⟨hc, hstr⟩ := matches_one_cons.mp hstr
    exact ⟨_, rest, ⟨elems, hclass, rfl⟩, by simpa [classHas] using hc, _, hrest, hstr⟩
  · rintro ⟨_, rest, ⟨elems, hclass, rfl⟩, hm, items, hpat, hstr⟩
    have hitem : Matches (.one (classHas neg elems) :: items) (c :: str) :=
      matches_one_cons.mpr ⟨by simpa [classHas] using hm, hstr⟩
    cases neg with
    | false => exact ⟨_, .inClass (hneg rfl) hclass hpat, hitem⟩
    | true => exact ⟨_, .notInClass hclass hpat, hitem⟩

end Patterns

/-- The step of `glob_match` at a bracket. -/
theorem globMatch_class {fuel : Nat} {c : UInt8} {pat str : Bytes}
    (ih : ∀ pat str : Bytes, pat.length < fuel → (globMatch fuel pat str = true ↔ GlobMatches pat str))
    (hpat : pat.length < fuel) :
    globMatch (fuel + 1) (91 :: pat) (c :: str) = true ↔ GlobMatches (91 :: pat) (c :: str) := by
  -- the pattern behind the bracket and the caret
  obtain ⟨neg, text, rfl, hneg, hhead⟩ : ∃ neg text, pat = (if neg then 94 :: text else text) ∧
      (neg = false → text.head? ≠ some 94) ∧ (pat.head? = some 94 ↔ neg = true) := by
    by_cases h : pat.head? = some 94
    · obtain ⟨text, rfl⟩ := List.head?_eq_some_iff.mp h
      exact ⟨true, text, by simp, by simp, by simp⟩
    · exact ⟨false, pat, by simp, fun _ => h, by simp [h]⟩
  have htext : text.length < fuel := by
    cases neg <;> simp at hpat <;> omega
  rw [globMatches_class neg hneg]
  have hbody : (if (if neg = true then 94 :: text else text).head? = some 94
      then (if neg = true then 94 :: text else text).drop 1
      else (if neg = true then 94 :: text else text)) = text := by
    cases neg with
    | false => simp [hneg rfl]
    | true => simp
  simp only [globMatch, hbody]
  cases hclass : globClass c true false text with
  | none => simp
  | some r =>
    obtain ⟨m, rest⟩ := r
    obtain ⟨elems, hbody, -⟩ := globClass_iff.mp hclass
    have hrest := ih rest str (hbody.length_lt.trans htext)
    cases neg <;> cases m <;> simp_all

theorem globMatch_of_lt (fuel : Nat) : ∀ pat str : Bytes, pat.length < fuel →
    (globMatch fuel pat str = true ↔ GlobMatches pat str) := by
  induction fuel with
  | zero => exact fun pat str h => absurd h (Nat.not_lt_zero _)
  | succ fuel ih =>
    intro pat str hlen
    cases pat with
    | nil => simp [globMatch, globMatches_nil]
    | cons p pat =>
      have hpat : pat.length < fuel := by simpa using hlen
      by_cases hstar : p = 42
      · subst hstar
        have hdrop : (pat.dropWhile (· = 42)).length < fuel :=
          lt_of_le_of_lt (List.dropWhile_suffix _).length_le hpat
        simp [globMatch, globMatches_star, ih _ _ hdrop, or_iff_not_imp_left]
      by_cases hquestion : p = 63
      · subst hquestion
        cases str with
        | nil => simp [globMatch, not_globMatches_one_nil hstar]
        | cons c str => simp [globMatch, globMatches_question, ih _ _ hpat]
      by_cases hclass : p = 91
      · subst hclass
        cases str with
        | nil => simp [globMatch, not_globMatches_one_nil hstar]
        | cons c str => exact globMatch_class ih hpat
      · cases str with
        | nil => simp [globMatch, not_globMatches_one_nil hstar]
        | cons c str =>
          simp [globMatch, globMatches_byte ⟨hstar, hquestion, hclass⟩, ih _ _ hpat]

/-- **GLOB decides its language**: `glob_match` accepts the texts that match the items of a well-formed
pattern, and nothing for a pattern with a bracket that is not closed. -/
theorem glob_match_iff (pat str : Bytes) : globMatch (pat.length + 1) pat str = true ↔
    ∃ items, GlobPattern pat items ∧ Matches items str :=
  globMatch_of_lt _ pat str (Nat.lt_succ_self _)

end Tdb.Sql
