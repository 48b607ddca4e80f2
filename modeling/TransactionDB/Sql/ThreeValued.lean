import TransactionDB.Lib.Kleene
import TransactionDB.Sql.Eval

/-!
# TransactionDB — three-valued logic

`eval` against the logic of SQL, in which a condition on NULL is unknown. Comparisons, IS and LIKE
give NULL for unknown. NOT, AND, OR, BETWEEN and IN give an integer always: they are right just where
the condition is not unknown (`three_valued_iff`).

A WHERE clause takes the rows where the condition is true. Of a condition, its negation and the test
that it is NULL, each row satisfies one, unless `eval` gives NULL for the condition; then the negation
is true as well.
-/

namespace Tdb.Sql

open Kleene

/-! ## The logic -/

/-- The truth of a value. -/
def truth (v : Value) : Truth := if v = .null then none else some (valTrue v)

/-- A condition as a value. -/
def ofTruth : Truth → Value
  | none => .null
  | some b => boolValue b

/-- A comparison; unknown with NULL. -/
def cmpTruth (op : CmpOp) (l r : Value) : Truth :=
  if l = .null ∨ r = .null then none else some (op.holds (valueCompare l r .binary))

/-- A LIKE is unknown if one of its operands is NULL, ESCAPE included. -/
def likeKnown (lib : TypeLib) (negated : Bool) (l r : Value) (esc : Option Value) : Value :=
  if esc = some .null then .null else likeValue lib negated l r esc

/-- A text matches a pattern with one ESCAPE as with another, which is not NULL. -/
def SameEscape (lib : TypeLib) (l r : Value) (esc esc' : Option Value) : Prop :=
  esc' ≠ some .null ∧ likeValue lib false l r esc = likeValue lib false l r esc'

section Kleene

variable (L : EvalLib) (c : Ectx)

mutual

/-- The value of a condition in three-valued logic. What is no condition is as `eval` has it. -/
def kleene : Expr → Value
  | .unary .not e => ofTruth (Kleene.not (truth (kleene e)))
  | .binary .and l r => ofTruth (Kleene.and (truth (kleene l)) (truth (kleene r)))
  | .binary .or l r => ofTruth (Kleene.or (truth (kleene l)) (truth (kleene r)))
  | .binary (.cmp op) l r => ofTruth (cmpTruth op (kleene l) (kleene r))
  | .is negated l r => isValue negated (kleene l) (kleene r)
  | .like negated l r esc => likeKnown L.types negated (kleene l) (kleene r) (kleeneOption esc)
  | .between negated x lo hi =>
    ofTruth (negateIf negated
      (Kleene.and (cmpTruth .ge (kleene x) (kleene lo)) (cmpTruth .le (kleene x) (kleene hi))))
  | .inList negated x args =>
    ofTruth (negateIf negated (Kleene.any ((kleeneList args).map (cmpTruth .eq (kleene x)))))
  | e => (eval L c e).2

def kleeneOption : Option Expr → Option Value
  | none => none
  | some e => some (kleene e)

def kleeneList : List Expr → List Value
  | [] => []
  | e :: es => kleene e :: kleeneList es

end

mutual

/-- `eval` has the value of three-valued logic, for the expression and all conditions in it. -/
def Agrees : Expr → Prop
  | .unary .not e => eval L c (.unary .not e) = (.ok, kleene L c (.unary .not e)) ∧ Agrees e
  | .binary op l r => eval L c (.binary op l r) = (.ok, kleene L c (.binary op l r)) ∧ Agrees l ∧ Agrees r
  | .is negated l r => eval L c (.is negated l r) = (.ok, kleene L c (.is negated l r)) ∧ Agrees l ∧ Agrees r
  | .like negated l r esc =>
    eval L c (.like negated l r esc) = (.ok, kleene L c (.like negated l r esc)) ∧
      Agrees l ∧ Agrees r
  | .between negated x lo hi =>
    eval L c (.between negated x lo hi) = (.ok, kleene L c (.between negated x lo hi)) ∧
      Agrees x ∧ Agrees lo ∧ Agrees hi
  | .inList negated x args =>
    eval L c (.inList negated x args) = (.ok, kleene L c (.inList negated x args)) ∧
      Agrees x ∧ AgreesList args
  | e => eval L c e = (.ok, kleene L c e)

def AgreesList : List Expr → Prop
  | [] => True
  | e :: es => Agrees e ∧ AgreesList es

end

mutual

/-- No NOT, AND, OR, BETWEEN or IN of the expression is unknown. Where a LIKE has no NULL for an operand,
its ESCAPE is not NULL, and the match is the same with NULL for the columns of ESCAPE. -/
def Decided : Expr → Prop
  | .unary .not e => kleene L c (.unary .not e) ≠ .null ∧ Decided e
  | .binary .and l r => kleene L c (.binary .and l r) ≠ .null ∧ Decided l ∧ Decided r
  | .binary .or l r => kleene L c (.binary .or l r) ≠ .null ∧ Decided l ∧ Decided r
  | .binary _ l r => Decided l ∧ Decided r
  | .is _ l r => Decided l ∧ Decided r
  | .like _ l r esc =>
    (kleene L c l ≠ .null → kleene L c r ≠ .null →
      SameEscape L.types (kleene L c l) (kleene L c r) (evalOption L c.unresolved esc)
        (kleeneOption L c esc)) ∧ Decided l ∧ Decided r
  | .between negated x lo hi =>
    kleene L c (.between negated x lo hi) ≠ .null ∧ Decided x ∧ Decided lo ∧ Decided hi
  | .inList negated x args =>
    kleene L c (.inList negated x args) ≠ .null ∧ Decided x ∧ DecidedList args
  | _ => True

def DecidedList : List Expr → Prop
  | [] => True
  | e :: es => Decided e ∧ DecidedList es

end

end Kleene

mutual

/-- An expression of comparisons, LIKE, IS, BETWEEN, IN with a list, AND, OR and NOT, over columns and
literals. -/
def Expr.isCondition : Expr → Bool
  | .literal _ | .null | .column _ _ => true
  | .unary .not e => e.isCondition
  | .binary .and l r | .binary .or l r | .binary (.cmp _) l r => l.isCondition && r.isCondition
  | .is _ l r => l.isCondition && r.isCondition
  | .like _ l r esc => l.isCondition && r.isCondition && optionCondition esc
  | .between _ x lo hi => x.isCondition && lo.isCondition && hi.isCondition
  | .inList _ x args => x.isCondition && listCondition args
  | _ => false

def optionCondition : Option Expr → Bool
  | none => true
  | some e => e.isCondition

def listCondition : List Expr → Bool
  | [] => true
  | e :: es => e.isCondition && listCondition es

end

/-! ## One operator -/

section Operators

variable {l r x lo hi v : Value} {t : Truth} {b negated : Bool}

theorem boolValue_ne_null : boolValue b ≠ .null := nofun

theorem ofTruth_ne_null_iff : ofTruth t ≠ .null ↔ t ≠ none := by
  cases t with
  | none => simp [ofTruth]
  | some b => simp [ofTruth, boolValue]

/-- An integer is the value of a condition that it is right about, just where that is not unknown. -/
theorem boolValue_eq_ofTruth_iff (h : t ≠ none → b = isTrue t) :
    boolValue b = ofTruth t ↔ ofTruth t ≠ .null := by
  constructor
  · intro heq
    rw [← heq]
    exact boolValue_ne_null
  · intro hne
    have hsome := ofTruth_ne_null_iff.mp hne
    rw [h hsome, eq_some_isTrue hsome]
    rfl

theorem isTrue_truth (v : Value) : isTrue (truth v) = valTrue v := by
  unfold truth
  split
  · rename_i hnull
    rw [hnull]
    rfl
  · rfl

theorem compareValues_eq (op : CmpOp) (l r : Value) : compareValues op l r = ofTruth (cmpTruth op l r) := by
  unfold compareValues cmpTruth
  split <;> rfl

theorem not_agrees_iff (v : Value) :
    unaryValue .not v = ofTruth (Kleene.not (truth v)) ↔ ofTruth (Kleene.not (truth v)) ≠ .null := by
  refine boolValue_eq_ofTruth_iff fun h => ?_
  rw [isTrue_not fun hnone => h (not_eq_none_iff.mpr hnone), isTrue_truth]

theorem and_agrees_iff (l r : Value) :
    boolValue (valTrue l && valTrue r) = ofTruth (Kleene.and (truth l) (truth r)) ↔
      ofTruth (Kleene.and (truth l) (truth r)) ≠ .null :=
  boolValue_eq_ofTruth_iff fun _ => by rw [isTrue_and, isTrue_truth, isTrue_truth]

theorem or_agrees_iff (l r : Value) :
    boolValue (valTrue l || valTrue r) = ofTruth (Kleene.or (truth l) (truth r)) ↔
      ofTruth (Kleene.or (truth l) (truth r)) ≠ .null :=
  boolValue_eq_ofTruth_iff fun _ => by rw [isTrue_or, isTrue_truth, isTrue_truth]

/-- NULL comes before every value. -/
theorem valueCompare_null (h : x ≠ .null) : valueCompare x .null .binary = .gt := by
  cases x <;> first | exact absurd rfl h | rfl

theorem likeValue_eq_null_iff (lib : TypeLib) (negated : Bool) (l r : Value) (esc : Option Value) :
    likeValue lib negated l r esc = .null ↔ l = .null ∨ r = .null := by
  unfold likeValue
  split
  · rename_i h
    exact ⟨fun _ => h, fun _ => rfl⟩
  · rename_i h
    exact ⟨fun heq => absurd heq boolValue_ne_null, fun h' => absurd h' h⟩

/-- Negated or not, a LIKE says whether the text matches. -/
theorem likeValue_congr_iff {lib : TypeLib} {esc esc' : Option Value} (negated : Bool) :
    likeValue lib negated l r esc = likeValue lib negated l r esc' ↔
      likeValue lib false l r esc = likeValue lib false l r esc' := by
  unfold likeValue
  split
  · exact Iff.rfl
  · cases negated with
    | false => exact Iff.rfl
    | true =>
      simp only [if_true, Bool.false_eq_true, if_false, boolValue]
      grind

theorem like_agrees_iff (lib : TypeLib) (negated : Bool) (l r : Value) (esc esc' : Option Value) :
    likeValue lib negated l r esc = likeKnown lib negated l r esc' ↔
      (l ≠ .null → r ≠ .null → SameEscape lib l r esc esc') := by
  by_cases hnull : l = .null ∨ r = .null
  · have hall : ∀ e, likeValue lib negated l r e = .null :=
      fun e => (likeValue_eq_null_iff lib negated l r e).mpr hnull
    refine iff_of_true ?_ fun hl hr => absurd hnull (not_or.mpr ⟨hl, hr⟩)
    rw [likeKnown, hall, hall, ite_self]
  · have hl : l ≠ .null := fun h => hnull (.inl h)
    have hr : r ≠ .null := fun h => hnull (.inr h)
    simp only [ne_eq, hl, hr, not_false_eq_true, true_imp_iff, SameEscape]
    rw [likeKnown]
    split
    · rename_i hesc
      simp [hesc, likeValue_eq_null_iff, hl, hr]
    · rename_i hesc
      simp only [hesc, not_false_eq_true, true_and]
      exact likeValue_congr_iff negated

/-- BETWEEN takes NULL for a value below all others, which decides nothing that is known. -/
theorem between_known (h : Kleene.and (cmpTruth .ge x lo) (cmpTruth .le x hi) ≠ none) :
    (CmpOp.ge.holds (valueCompare x lo .binary) && CmpOp.le.holds (valueCompare x hi .binary)) =
      isTrue (Kleene.and (cmpTruth .ge x lo) (cmpTruth .le x hi)) := by
  have hnull : x ≠ .null := by
    intro hx
    simp [cmpTruth, hx, Kleene.and] at h
  by_cases hlo : lo = .null
  · by_cases hhi : hi = .null
    · simp [cmpTruth, hlo, hhi, Kleene.and] at h
    · -- only the upper bound is there, and it is passed
      rw [isTrue_and, hlo, valueCompare_null hnull]
      cases hle : CmpOp.le.holds (valueCompare x hi .binary) with
      | false => simp [cmpTruth, hhi, hnull, hle]
      | true => simp [cmpTruth, hlo, hhi, hnull, hle, Kleene.and] at h
  · by_cases hhi : hi = .null
    · rw [isTrue_and, hhi, valueCompare_null hnull]
      cases hge : CmpOp.ge.holds (valueCompare x lo .binary) with
      | false => simp [cmpTruth, hlo, hnull, hge]
      | true => simp [cmpTruth, hlo, hhi, hnull, hge, Kleene.and] at h
    · simp [isTrue_and, cmpTruth, hnull, hlo, hhi]

theorem between_agrees_iff (negated : Bool) (x lo hi : Value) :
    betweenValue negated x lo hi =
        ofTruth (negateIf negated (Kleene.and (cmpTruth .ge x lo) (cmpTruth .le x hi))) ↔
      ofTruth (negateIf negated (Kleene.and (cmpTruth .ge x lo) (cmpTruth .le x hi))) ≠ .null := by
  refine boolValue_eq_ofTruth_iff fun h => ?_
  have hknown := fun hnone => h (negateIf_eq_none_iff.mpr hnone)
  rw [isTrue_negateIf hknown, between_known hknown]

theorem amongValues_eq (x : Value) (vs : List Value) :
    amongValues x vs = isTrue (Kleene.any (vs.map (cmpTruth .eq x))) := by
  rw [isTrue_any, List.any_map, amongValues]
  congr 1
  funext v
  by_cases hx : x = .null
  · simp [cmpTruth, hx]
  · by_cases hv : v = .null
    · simp [cmpTruth, hv]
    · simp [cmpTruth, hx, hv, CmpOp.holds]

theorem in_agrees_iff (negated : Bool) (x : Value) (vs : List Value) :
    inValue negated x vs = ofTruth (negateIf negated (Kleene.any (vs.map (cmpTruth .eq x)))) ↔
      ofTruth (negateIf negated (Kleene.any (vs.map (cmpTruth .eq x)))) ≠ .null := by
  refine boolValue_eq_ofTruth_iff fun h => ?_
  have hknown := fun hnone => h (negateIf_eq_none_iff.mpr hnone)
  rw [isTrue_negateIf hknown, amongValues_eq]

end Operators

/-! ## Every expression -/

section Trees

variable {L : EvalLib} {c : Ectx}

theorem Agrees.value {e : Expr} (h : Agrees L c e) : eval L c e = (.ok, kleene L c e) := by
  unfold Agrees at h
  split at h
  all_goals first
    | exact h.1
    | exact h

theorem AgreesList.value : ∀ {es : List Expr}, AgreesList L c es → evalList L c es = kleeneList L c es
  | [], _ => rfl
  | e :: es, h => by
    rw [evalList, kleeneList, Agrees.value h.1, AgreesList.value h.2]

mutual

/-- One case for each operator: where the operands agree, the operator does just where it is decided. -/
theorem agrees_iff : ∀ e : Expr, e.isCondition = true → (Agrees L c e ↔ Decided L c e)
  | .unary .not e, h => by
    unfold Agrees Decided
    rw [← agrees_iff e h]
    refine and_congr_left fun he => ?_
    simp only [eval, kleene, he.value, Prod.mk.injEq, true_and]
    exact not_agrees_iff _
  | .binary .and l r, h => by
    simp only [Expr.isCondition, Bool.and_eq_true] at h
    unfold Agrees Decided
    rw [← agrees_iff l h.1, ← agrees_iff r h.2]
    refine and_congr_left fun ⟨hl, hr⟩ => ?_
    simp only [eval, kleene, hl.value, hr.value, Prod.mk.injEq, true_and]
    exact and_agrees_iff _ _
  | .binary .or l r, h => by
    simp only [Expr.isCondition, Bool.and_eq_true] at h
    unfold Agrees Decided
    rw [← agrees_iff l h.1, ← agrees_iff r h.2]
    refine and_congr_left fun ⟨hl, hr⟩ => ?_
    simp only [eval, kleene, hl.value, hr.value, Prod.mk.injEq, true_and]
    exact or_agrees_iff _ _
  | .binary (.cmp op) l r, h => by
    simp only [Expr.isCondition, Bool.and_eq_true] at h
    unfold Agrees Decided
    rw [← agrees_iff l h.1, ← agrees_iff r h.2]
    refine ⟨fun hall => hall.2, fun ⟨hl, hr⟩ => ⟨?_, hl, hr⟩⟩
    simp only [eval, kleene, hl.value, hr.value, binaryValue, compareValues_eq]
  | .is negated l r, h => by
    simp only [Expr.isCondition, Bool.and_eq_true] at h
    unfold Agrees Decided
    rw [← agrees_iff l h.1, ← agrees_iff r h.2]
    refine ⟨fun hall => hall.2, fun ⟨hl, hr⟩ => ⟨?_, hl, hr⟩⟩
    simp only [eval, kleene, hl.value, hr.value]
  | .like negated l r esc, h => by
    simp only [Expr.isCondition, Bool.and_eq_true] at h
    unfold Agrees Decided
    rw [← agrees_iff l h.1.1, ← agrees_iff r h.1.2]
    refine and_congr_left fun ⟨hl, hr⟩ => ?_
    simp only [eval, kleene, hl.value, hr.value, Prod.mk.injEq, true_and]
    exact like_agrees_iff _ _ _ _ _ _
  | .between negated x lo hi, h => by
    simp only [Expr.isCondition, Bool.and_eq_true] at h
    unfold Agrees Decided
    rw [← agrees_iff x h.1.1, ← agrees_iff lo h.1.2, ← agrees_iff hi h.2]
    refine and_congr_left fun ⟨hx, hlo, hhi⟩ => ?_
    simp only [eval, kleene, hx.value, hlo.value, hhi.value, Prod.mk.injEq, true_and]
    exact between_agrees_iff _ _ _ _
  | .inList negated x args, h => by
    simp only [Expr.isCondition, Bool.and_eq_true] at h
    unfold Agrees Decided
    rw [← agrees_iff x h.1, ← agreesList_iff args h.2]
    refine and_congr_left fun ⟨hx, hargs⟩ => ?_
    simp only [eval, kleene, hx.value, hargs.value, Prod.mk.injEq, true_and]
    exact in_agrees_iff _ _ _
  | .literal _, _ | .null, _ | .column _ _, _ => iff_of_true rfl trivial

theorem agreesList_iff : ∀ es : List Expr, listCondition es = true →
    (AgreesList L c es ↔ DecidedList L c es)
  | [], _ => Iff.rfl
  | e :: es, h => by
    simp only [listCondition, Bool.and_eq_true] at h
    exact and_congr (agrees_iff e h.1) (agreesList_iff es h.2)

end

/-- The conditions that `eval` gives NULL for: a comparison or a LIKE over a NULL. -/
def unknownTo (c : Ectx) : Expr → Bool
  | .literal v => v = .null
  | .null => true
  | .column table name => c.cell table name = .null
  | .binary (.cmp _) l r => unknownTo c l || unknownTo c r
  | .like _ l r _ => unknownTo c l || unknownTo c r
  | _ => false

theorem eval_eq_null_iff : ∀ {e : Expr}, e.isCondition = true →
    ((eval L c e).2 = .null ↔ unknownTo c e = true)
  | .literal _, _ | .null, _ | .column _ _, _ => by simp [eval, unknownTo]
  | .binary (.cmp op) l r, h => by
    simp only [Expr.isCondition, Bool.and_eq_true] at h
    have hnull : ∀ x y, compareValues op x y = .null ↔ x = .null ∨ y = .null := by
      intro x y
      unfold compareValues
      split
      · rename_i hor
        exact ⟨fun _ => hor, fun _ => rfl⟩
      · rename_i hor
        exact ⟨fun heq => absurd heq boolValue_ne_null, fun hor' => absurd hor' hor⟩
    simp only [eval, unknownTo, binaryValue, hnull, Bool.or_eq_true, eval_eq_null_iff h.1,
      eval_eq_null_iff h.2]
  | .like negated l r esc, h => by
    simp only [Expr.isCondition, Bool.and_eq_true] at h
    simp only [eval, unknownTo, likeValue_eq_null_iff, Bool.or_eq_true, eval_eq_null_iff h.1.1,
      eval_eq_null_iff h.1.2]
  | .unary .not _, _ | .binary .and _ _, _ | .binary .or _ _, _ | .is _ _ _, _ | .between _ _ _ _, _
  | .inList _ _ _, _ => iff_of_false boolValue_ne_null (by simp [unknownTo])

end Trees

/-! ## WHERE -/

section Where

variable (L : EvalLib) {ρ : Type} (ctx : ρ → Ectx)

/-- The rows that a WHERE clause takes. -/
def whereRows (rows : List ρ) (p : Expr) : List ρ := rows.filter fun row => valTrue (eval L (ctx row) p).2

/-- Each row is selected by the condition, by its negation or as NULL, and by one of them. -/
def Partitions (rows : List ρ) (p : Expr) : Prop :=
  (whereRows L ctx rows p ++ whereRows L ctx rows (.unary .not p) ++
    whereRows L ctx rows (.is false p .null)).Perm rows

variable {L ctx}

theorem valTrue_boolValue (b : Bool) : valTrue (boolValue b) = b := by cases b <;> rfl

theorem whereRows_not (rows : List ρ) (p : Expr) :
    whereRows L ctx rows (.unary .not p) = rows.filter fun row => !valTrue (eval L (ctx row) p).2 := by
  simp only [whereRows, eval, unaryValue, valTrue_boolValue]

theorem whereRows_isNull (rows : List ρ) (p : Expr) :
    whereRows L ctx rows (.is false p .null) = rows.filter fun row => (eval L (ctx row) p).2 = .null := by
  simp only [whereRows, eval, isValue, valTrue_boolValue]
  congr 1
  funext row
  by_cases h : (eval L (ctx row) p).2 = .null <;> simp [h]

/-- The condition and its negation are a partition already. -/
theorem partitions_iff (rows : List ρ) (p : Expr) :
    Partitions L ctx rows p ↔ ∀ row ∈ rows, (eval L (ctx row) p).2 ≠ .null := by
  have hboth : (whereRows L ctx rows p ++ whereRows L ctx rows (.unary .not p)).Perm rows := by
    rw [whereRows_not]
    exact List.filter_append_perm _ rows
  have hnull : whereRows L ctx rows (.is false p .null) = [] ↔
      ∀ row ∈ rows, (eval L (ctx row) p).2 ≠ .null := by
    rw [whereRows_isNull, List.filter_eq_nil_iff]
    simp
  rw [← hnull]
  constructor
  · intro h
    have hlen := h.length_eq
    rw [List.length_append, hboth.length_eq] at hlen
    exact List.eq_nil_of_length_eq_zero (by omega)
  · intro h
    rw [Partitions, h, List.append_nil]
    exact hboth

end Where

/-- **When conditions follow three-valued logic.** On a row: just when no NOT, AND, OR, BETWEEN or IN of
the condition is unknown (and each ESCAPE is what its columns make it). The rows of a table are partitioned:
just when on none of them the condition itself is a comparison or a LIKE over a NULL. -/
theorem three_valued_iff (L : EvalLib) {ρ : Type} (ctx : ρ → Ectx) (p : Expr) (hp : p.isCondition = true) :
    (∀ row, Agrees L (ctx row) p ↔ Decided L (ctx row) p) ∧
      ∀ rows : List ρ, Partitions L ctx rows p ↔ ∀ row ∈ rows, unknownTo (ctx row) p = false := by
  refine ⟨fun row => agrees_iff p hp, fun rows => ?_⟩
  rw [partitions_iff]
  refine forall₂_congr fun row _ => ?_
  rw [Ne, eval_eq_null_iff hp, Bool.not_eq_true]

/-- A library without functions. -/
def plainLib : EvalLib where
  types := ⟨fun _ => (0, 0), fun _ => [], fun _ => .error none, fun _ => false, fun _ => false⟩
  fmod a _ := a
  func _ _ := .done .error .null

/-- A row of one column. -/
def oneCell (v : Value) : Ectx := ⟨fun _ _ => v, [], fun _ _ _ => .null, fun _ _ _ _ => .null, fun _ => ⟨.ok [], []⟩⟩

/-- `a = 1`. -/
def aIsOne : Expr := .binary (.cmp .eq) (.column none "a".toUTF8.toList) (.literal (.int 1))

/-- `NOT (a = 1)`, where `a` is 2, and the table of 1 and 2. -/
theorem three_valued_two :
    Agrees plainLib (oneCell (.int 2)) (.unary .not aIsOne) ∧
      Partitions plainLib oneCell [.int 1, .int 2] (.unary .not aIsOne) := by
  have h := three_valued_iff plainLib oneCell (.unary .not aIsOne) rfl
  refine ⟨(h.1 (.int 2)).mpr ⟨?_, trivial, trivial⟩, (h.2 _).mpr (by decide +kernel)⟩
  decide +kernel

/-- **`NOT (a = 1)`, where `a` is NULL.** The condition is unknown, and `eval` has 1. The row is selected by
`NOT (a = 1)` and by `(a = 1) IS NULL`. -/
theorem not_null_is_true :
    kleene plainLib (oneCell .null) (.unary .not aIsOne) = .null ∧
      eval plainLib (oneCell .null) (.unary .not aIsOne) = (.ok, .int 1) ∧
      whereRows plainLib oneCell [.null] (.unary .not aIsOne) = [.null] ∧
      whereRows plainLib oneCell [.null] (.is false aIsOne .null) = [.null] := by
  decide +kernel

end Tdb.Sql
