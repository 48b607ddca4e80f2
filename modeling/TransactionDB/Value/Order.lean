import TransactionDB.Lib.MixedOrder
import TransactionDB.Value.Compare

/-!
# TransactionDB — how far the comparison of values is an order

Sorting, grouping, DISTINCT, the set operations and the indexes need `tdb_value_compare` to be a total
preorder. Within a kind it is: blobs, composites and texts are compared as lists of bytes (texts under
NOCASE after lowering), integers and doubles as numbers. The kinds are kept apart by their rank. Only a
double between two integers fails: each integer is rounded before it is compared with the double, while
the two integers are compared as they are.
-/

namespace Tdb

open MixedOrder

/-! ## Bytes and texts -/

/-- `memcmp` and the lengths together are the order of the lists. -/
theorem memcmp_then_length : ∀ a b : Bytes,
    (memcmp a b).then (compare a.length b.length) = compare a b
  | [], [] => rfl
  | [], _ :: _ => by simp [memcmp, Nat.compare_eq_lt]
  | _ :: _, [] => by simp [memcmp, Nat.compare_eq_gt]
  | x :: a, y :: b => by
    rw [memcmp, List.compare_cons_cons]
    split
    · next heq =>
      subst heq
      have hlen : compare (x :: a).length (x :: b).length = compare a.length b.length := by
        simp [Nat.compare_eq_ite_lt]
      have hself : compare x x = .eq := Std.ReflOrd.compare_self
      rw [hlen, memcmp_then_length a b, hself]
      rfl
    · next hne =>
      -- the first byte decides
      have hcmp : compare x y ≠ .eq := fun he => hne (Std.LawfulEqCmp.eq_of_compare he)
      cases hxy : compare x y with
      | lt => rfl
      | eq => exact absurd hxy hcmp
      | gt => rfl

/-- Without a NUL, `strncasecmp` is `memcmp` after lowering. -/
theorem strncasecmp_eq_memcmp : ∀ {a b : Bytes}, 0 ∉ a →
    strncasecmp a b = memcmp (a.map lowerAscii) (b.map lowerAscii)
  | [], _, _ | _ :: _, [], _ => by simp [strncasecmp, memcmp]
  | x :: a, y :: b, h => by
    have hx : x ≠ 0 := fun he => h (by simp [he])
    have hrec : strncasecmp a b = memcmp (a.map lowerAscii) (b.map lowerAscii) :=
      strncasecmp_eq_memcmp fun hm => h (List.mem_cons_of_mem _ hm)
    simp only [strncasecmp, List.map_cons, memcmp, if_neg hx, hrec, ite_not]

/-- The bytes by which a collation orders a text. -/
def Collation.key : Collation → Bytes → Bytes
  | .binary, s => s
  | .nocase, s => s.map lowerAscii

theorem cmpText_eq_compare {a b : Bytes} (coll : Collation) (h : 0 ∉ a) :
    cmpText a b coll = compare (coll.key a) (coll.key b) := by
  rw [← memcmp_then_length]
  cases coll with
  | binary => rfl
  | nocase => simp only [cmpText, Collation.key, strncasecmp_eq_memcmp h, List.length_map]

/-! ## Both directions -/

theorem memcmp_swap : ∀ a b : Bytes, memcmp a b = (memcmp b a).swap
  | [], b => by cases b <;> rfl
  | _ :: _, [] => rfl
  | x :: a, y :: b => by
    simp only [memcmp, eq_comm (a := y) (b := x)]
    split
    · exact memcmp_swap a b
    · exact Std.OrientedOrd.eq_swap

theorem lowerAscii_eq_zero (x : UInt8) : lowerAscii x = 0 ↔ x = 0 := by
  unfold lowerAscii
  split
  · grind
  · exact Iff.rfl

theorem strncasecmp_swap : ∀ a b : Bytes, strncasecmp a b = (strncasecmp b a).swap
  | [], b => by cases b <;> rfl
  | _ :: _, [] => rfl
  | x :: a, y :: b => by
    by_cases hlow : lowerAscii x = lowerAscii y
    · -- both texts end here, or none does
      have hnul : x = 0 ↔ y = 0 := by rw [← lowerAscii_eq_zero x, ← lowerAscii_eq_zero y, hlow]
      simp only [strncasecmp, hlow, ne_eq, not_true_eq_false, if_false, hnul]
      split
      · rfl
      · exact strncasecmp_swap a b
    · simp only [strncasecmp, ne_eq, hlow, Ne.symm hlow, not_false_eq_true, if_true]
      exact Std.OrientedOrd.eq_swap

theorem cmpText_swap (a b : Bytes) (coll : Collation) : cmpText a b coll = (cmpText b a coll).swap := by
  have hlen : compare a.length b.length = (compare b.length a.length).swap := Std.OrientedOrd.eq_swap
  cases coll with
  | binary => simp only [cmpText, Ordering.swap_then, ← hlen, ← memcmp_swap]
  | nocase => simp only [cmpText, Ordering.swap_then, ← hlen, ← strncasecmp_swap]

theorem compareReals_swap (x y : Option Int) : compareReals x y = (compareReals y x).swap := by
  cases x <;> cases y <;> first | rfl | exact Std.OrientedOrd.eq_swap

/-- Values of different kinds are compared by their kind. -/
theorem valueCompare_of_class_ne (coll : Collation) (a b : Value) (h : typeClass a ≠ typeClass b) :
    valueCompare a b coll = compare (typeClass a) (typeClass b) :=
  if_pos h

theorem number_cases {a : Value} (h : typeClass a = 1) :
    (∃ i, a = .int i) ∨ ∃ bits, a = .real bits := by
  cases a with
  | int i => exact Or.inl ⟨i, rfl⟩
  | real bits => exact Or.inr ⟨bits, rfl⟩
  | _ => cases h

/-- Two values of one kind. -/
theorem sameClass_cases {a b : Value} (h : typeClass a = typeClass b) :
    a = .null ∧ b = .null ∨ typeClass a = 1 ∧ typeClass b = 1 ∨
      (∃ x y, a = .text x ∧ b = .text y) ∨ (∃ x y, a = .blob x ∧ b = .blob y) ∨
      ∃ x y, a = .composite x ∧ b = .composite y := by
  cases a <;> cases b <;> simp_all [typeClass]

theorem valueCompare_swap (a b : Value) (coll : Collation) :
    valueCompare a b coll = (valueCompare b a coll).swap := by
  by_cases hclass : typeClass a = typeClass b
  · rcases sameClass_cases hclass with ⟨rfl, rfl⟩ | ⟨ha, hb⟩ | ⟨x, y, rfl, rfl⟩ | ⟨x, y, rfl, rfl⟩ |
      ⟨x, y, rfl, rfl⟩
    · rfl
    · rcases number_cases ha with ⟨i, rfl⟩ | ⟨r, rfl⟩ <;> rcases number_cases hb with ⟨j, rfl⟩ | ⟨t, rfl⟩
      · exact Std.OrientedOrd.eq_swap
      · exact compareReals_swap _ _
      · exact compareReals_swap _ _
      · exact compareReals_swap _ _
    · exact cmpText_swap x y coll
    · exact cmpText_swap x y .binary
    · exact cmpText_swap x y .binary
  · rw [valueCompare_of_class_ne coll a b hclass, valueCompare_of_class_ne coll b a (Ne.symm hclass)]
    exact Std.OrientedOrd.eq_swap

instance (coll : Collation) : Std.OrientedCmp (valueCompare · · coll) where
  eq_swap {a b} := valueCompare_swap a b coll

/-! ## Three values -/

/-- The values that a table holds: finite doubles and texts without a NUL. -/
def Value.Ordinary : Value → Prop
  | .real bits => Binary64.IsFinite bits
  | .text s => 0 ∉ s
  | _ => True

instance : ∀ v : Value, Decidable v.Ordinary
  | .real bits => inferInstanceAs (Decidable (Binary64.IsFinite bits))
  | .text s => inferInstanceAs (Decidable (0 ∉ s))
  | .null | .int _ | .blob _ | .composite _ => .isTrue trivial

/-- A number as the comparison takes it: an integer, or the value of a double. -/
def Value.number : Value → Int ⊕ Int
  | .int i => .inl i.toInt
  | .real bits => .inr ((Binary64.value bits).getD 0)
  | _ => .inl 0

/-- The bytes by which a value that is no number is ordered within its kind. -/
def Value.orderKey (coll : Collation) : Value → Bytes
  | .text s => coll.key s
  | .blob s | .composite s => s
  | _ => []

theorem Value.Ordinary.asReal {a : Value} (h : a.Ordinary) (hnum : typeClass a = 1) :
    a.asReal = some (image Binary64.ofInt a.number) := by
  rcases number_cases hnum with ⟨i, rfl⟩ | ⟨bits, rfl⟩
  · rfl
  · obtain ⟨v, hv⟩ := Binary64.IsFinite.value h
    simp [Value.asReal, Value.number, image, hv]

theorem valueCompare_numbers {a b : Value} (coll : Collation) (ha : typeClass a = 1)
    (hb : typeClass b = 1) (hoa : a.Ordinary) (hob : b.Ordinary) :
    valueCompare a b coll = mixedCmp Binary64.ofInt a.number b.number := by
  have hreal : compareReals a.asReal b.asReal =
      compare (image Binary64.ofInt a.number) (image Binary64.ofInt b.number) := by
    rw [hoa.asReal ha, hob.asReal hb, compareReals]
  rcases number_cases ha with ⟨i, rfl⟩ | ⟨r, rfl⟩ <;> rcases number_cases hb with ⟨j, rfl⟩ | ⟨t, rfl⟩
  · rfl
  · exact hreal
  · exact hreal
  · exact hreal

theorem valueCompare_keys {a b : Value} (coll : Collation) (hclass : typeClass a = typeClass b)
    (hnum : typeClass a ≠ 1) (hoa : a.Ordinary) :
    valueCompare a b coll = compare (a.orderKey coll) (b.orderKey coll) := by
  rcases sameClass_cases hclass with ⟨rfl, rfl⟩ | ⟨ha, hb⟩ | ⟨x, y, rfl, rfl⟩ | ⟨x, y, rfl, rfl⟩ |
    ⟨x, y, rfl, rfl⟩
  · rfl
  · exact absurd ha hnum
  · exact cmpText_eq_compare coll hoa
  · exact memcmp_then_length x y
  · exact memcmp_then_length x y

/-- The laws of a total preorder, for one triple. -/
structure OrderedAt (coll : Collation) (a b c : Value) : Prop where
  antisymm : valueCompare a b coll = (valueCompare b a coll).swap
  trans : TransAt (valueCompare · · coll) a b c
  eqTrans : EqTransAt (valueCompare · · coll) a b c

/-- Two integers are rounded to the double between them. -/
def RoundedOnto (a b c : Value) : Prop :=
  ∃ i bits j, a = .int i ∧ b = .real bits ∧ c = .int j ∧ i ≠ j ∧
    a.asReal = b.asReal ∧ c.asReal = b.asReal

theorem RoundedOnto.symm {a b c : Value} (h : RoundedOnto a b c) : RoundedOnto c b a := by
  obtain ⟨i, bits, j, ha, hb, hc, hne, hab, hcb⟩ := h
  exact ⟨j, bits, i, hc, hb, ha, hne.symm, hcb, hab⟩

theorem roundedOnto_of_collapses {a b c : Value} (ha : typeClass a = 1) (hb : typeClass b = 1)
    (hc : typeClass c = 1) (hoa : a.Ordinary) (hob : b.Ordinary) (hoc : c.Ordinary)
    (h : Collapses Binary64.ofInt a.number b.number c.number) : RoundedOnto a b c := by
  obtain ⟨x, y, z, hx, hy, hz, hne, hxy, hzy⟩ := h
  rw [Int.compare_eq_eq] at hxy hzy
  have hab : a.asReal = b.asReal := by
    rw [hoa.asReal ha, hob.asReal hb, hx, hy, image, image, hxy]
  have hcb : c.asReal = b.asReal := by
    rw [hoc.asReal hc, hob.asReal hb, hz, hy, image, image, hzy]
  -- only an integer is of the first kind, and only a double of the second
  rcases number_cases ha with ⟨i, rfl⟩ | ⟨r, rfl⟩
  · rcases number_cases hb with ⟨j, rfl⟩ | ⟨bits, rfl⟩
    · cases hy
    · rcases number_cases hc with ⟨k, rfl⟩ | ⟨r, rfl⟩
      · refine ⟨i, bits, k, rfl, rfl, rfl, ?_, hab, hcb⟩
        rintro rfl
        cases hx
        cases hz
        exact hne Std.ReflOrd.compare_self
      · cases hz
  · cases hx

/-- Away from the rounded triples the comparison is transitive. -/
theorem valueCompare_transAt (coll : Collation) {a b c : Value} (hoa : a.Ordinary) (hob : b.Ordinary)
    (hoc : c.Ordinary) (h : ¬RoundedOnto a b c) : TransAt (valueCompare · · coll) a b c := by
  refine TransAt.ofRank (valueCompare_of_class_ne coll) fun hab hbc => ?_
  by_cases hnum : typeClass a = 1
  · have hb : typeClass b = 1 := hab ▸ hnum
    have hc : typeClass c = 1 := hbc ▸ hb
    refine TransAt.ofMap Value.number (valueCompare_numbers coll hnum hb hoa hob)
      (valueCompare_numbers coll hb hc hob hoc) (valueCompare_numbers coll hnum hc hoa hoc) ?_
    refine transAt_mixedCmp (fun i j hij => ?_) fun hcol =>
      h (roundedOnto_of_collapses hnum hb hc hoa hob hoc hcol)
    exact Int.isLE_compare.mpr (Binary64.ofInt_mono (Int.isLE_compare.mp hij))
  · have hb : typeClass b ≠ 1 := hab ▸ hnum
    exact TransAt.ofMap (Value.orderKey coll) (valueCompare_keys coll hab hnum hoa)
      (valueCompare_keys coll hbc hb hob) (valueCompare_keys coll (hab.trans hbc) hnum hoa)
      (TransAt.of_transCmp _ _ _)

/-- Two integers that are rounded to one double equal it and differ. -/
theorem RoundedOnto.not_eqTransAt {coll : Collation} {a b c : Value} (h : RoundedOnto a b c) :
    ¬EqTransAt (valueCompare · · coll) a b c := by
  obtain ⟨i, bits, j, rfl, rfl, rfl, hne, hab, hcb⟩ := h
  have hself : ∀ x : Option Int, compareReals x x = .eq := fun x => by
    cases x with
    | none => rfl
    | some v => exact Std.ReflOrd.compare_self
  intro heq
  have hfirst : valueCompare (.int i) (.real bits) coll = .eq := by
    show compareReals _ _ = .eq
    rw [hab]
    exact hself _
  have hsecond : valueCompare (.real bits) (.int j) coll = .eq := by
    show compareReals _ _ = .eq
    rw [hcb]
    exact hself _
  have hij : compare i.toInt j.toInt = .eq := heq hfirst hsecond
  exact hne (Int64.toInt_inj.mp (Int.compare_eq_eq.mp hij))

/-- The comparison of values has the laws of a total preorder for every triple but two integers with the
double that both are rounded to. -/
theorem valueCompare_ordered_iff (coll : Collation) (a b c : Value) (ha : a.Ordinary) (hb : b.Ordinary)
    (hc : c.Ordinary) : OrderedAt coll a b c ↔ ¬RoundedOnto a b c := by
  constructor
  · intro hord hround
    exact hround.not_eqTransAt hord.eqTrans
  · intro hround
    have htrans := valueCompare_transAt coll ha hb hc hround
    have hback := valueCompare_transAt coll hc hb ha fun h => hround h.symm
    exact ⟨valueCompare_swap a b coll, htrans, EqTransAt.of_transAt htrans hback⟩

/-- `2^53 + 1` is rounded down to `2^53`, so that the double behind it is beyond both integers. -/
theorem valueCompare_ordered_next : OrderedAt .binary (.int 9007199254740993) (.real 0x4340000000000001)
    (.int 9007199254740994) := by
  refine (valueCompare_ordered_iff .binary (.int 9007199254740993) (.real 0x4340000000000001)
    (.int 9007199254740994) trivial (by decide) trivial).mpr ?_
  rintro ⟨i, bits, j, ha, hb, hc, hne, hab, hcb⟩
  exact absurd hab (by decide +kernel)

/-- `2^53 + 1` equals the double `2^53`, which equals `2^53`; but it is greater than `2^53`. -/
theorem valueCompare_rounded :
    valueCompare (.int 9007199254740993) (.real 0x4340000000000000) .binary = .eq ∧
      valueCompare (.real 0x4340000000000000) (.int 9007199254740992) .binary = .eq ∧
      valueCompare (.int 9007199254740993) (.int 9007199254740992) .binary = .gt := by
  decide +kernel

end Tdb
