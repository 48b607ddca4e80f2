import TransactionDB.Lib.Binary64
import TransactionDB.Value.Record

/-!
# TransactionDB — comparing values and keys

`tdb_value_compare` of `src/value/tdb_type.c` and `tdb_record_compare` of
`src/value/tdb_record.c`. Values of different kinds are ordered by kind: NULL, numbers, texts,
blobs, composites. A double is compared as a double, also with an integer, which is rounded to one; a NaN
is equal to every number. How far this is an order is settled in `Value.Order`.

`tdb_record_compare` has room for 16 columns and reads past its arrays with more.
`recordCompareChecked` says which accesses are allowed; `recordCompare` is its result where all are.
-/

namespace Tdb

inductive Collation where
  | binary
  | nocase
  deriving DecidableEq, Repr

/-- `type_class`. -/
def typeClass : Value → Nat
  | .null => 0
  | .int _ | .real _ => 1
  | .text _ => 2
  | .blob _ => 3
  | .composite _ => 4

/-- `memcmp`, up to the end of the shorter one. -/
def memcmp : Bytes → Bytes → Ordering
  | a :: as, b :: bs => if a = b then memcmp as bs else compare a b
  | _, _ => .eq

/-- `strncasecmp`, up to the end of the shorter one. -/
def strncasecmp : Bytes → Bytes → Ordering
  | a :: as, b :: bs =>
    if lowerAscii a ≠ lowerAscii b then compare (lowerAscii a) (lowerAscii b)
    else if a = 0 then .eq
    else strncasecmp as bs
  | _, _ => .eq

/-- `cmp_text`. -/
def cmpText (a b : Bytes) (coll : Collation) : Ordering :=
  let c := match coll with
    | .nocase => strncasecmp a b
    | .binary => memcmp a b
  c.then (compare a.length b.length)

/-- `tdb_value_as_real` of a number, in units of the smallest double; a NaN has none. -/
def Value.asReal : Value → Option Int
  | .int i => some (Binary64.ofInt i.toInt)
  | .real bits => Binary64.value bits
  | _ => some 0

/-- The `<` and `>` of doubles; both fail for a NaN. -/
def compareReals : Option Int → Option Int → Ordering
  | some x, some y => compare x y
  | _, _ => .eq

/-- `tdb_value_compare`. -/
def valueCompare (a b : Value) (coll : Collation) : Ordering :=
  if typeClass a ≠ typeClass b then compare (typeClass a) (typeClass b)
  else
    match a, b with
    | .null, _ => .eq
    | .int i, .int j => compare i.toInt j.toInt
    | .text x, .text y => cmpText x y coll
    | .blob x, .blob y => (memcmp x y).then (compare x.length y.length)
    | .composite x, .composite y => (memcmp x y).then (compare x.length y.length)
    | a, b => compareReals a.asReal b.asReal

/-- A column of `tdb_keyinfo`. -/
structure KeyCol where
  coll : Collation
  desc : Bool
  deriving DecidableEq, Repr

/-- The columns that both keys have, up to the first difference. -/
def compareCols : List KeyCol → List Value → List Value → Ordering
  | kc :: kcs, a :: as, b :: bs =>
    let c := valueCompare a b kc.coll
    (if kc.desc then c.swap else c).then (compareCols kcs as bs)
  | _, _, _ => .eq

/-- `tdb_record_compare`, for records that its arrays have room for. A record that cannot be decoded
equals every other. -/
def recordCompare (ki : List KeyCol) (a b : Bytes) : Ordering :=
  match recordDecode a ki.length, recordDecode b ki.length with
  | .ok (va, ca), .ok (vb, cb) => (compareCols ki va vb).then (compare ca cb)
  | _, _ => .eq

/-- How a column of a key is compared. -/
def KeyCol.compare (kc : KeyCol) (x y : Value) : Ordering :=
  if kc.desc then (valueCompare x y kc.coll).swap else valueCompare x y kc.coll

/-- The loop of `tdb_record_compare` over `n` columns, from the `i`-th; `none`: an element is read that was
not set. -/
def compareLoop (ki : List KeyCol) (va vb : List Value) : Nat → Nat → Option Ordering
  | 0, _ => some .eq
  | n + 1, i =>
    match ki[i]?, va[i]?, vb[i]? with
    | some kc, some x, some y =>
      if kc.compare x y ≠ .eq then some (kc.compare x y) else compareLoop ki va vb n (i + 1)
    | _, _, _ => none

/-- `tdb_record_compare` with the accesses to its arrays of 16 values. -/
def recordCompareChecked (ki : List KeyCol) (a b : Bytes) : Option Ordering :=
  let maxa := if 0 < ki.length ∧ ki.length ≤ 16 then ki.length else 16
  match recordDecode a maxa, recordDecode b maxa with
  | .ok (va, ca), .ok (vb, cb) =>
    match compareLoop ki va vb (min ca cb) 0 with
    | none => none
    | some c =>
      -- both arrays are cleared, as far as the records have columns
      if va.length < ca ∨ vb.length < cb then none
      else some (if c = .eq ∧ ca ≠ cb then (if ca < cb then .lt else .gt) else c)
  | _, _ => some .eq

end Tdb
