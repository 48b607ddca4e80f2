import TransactionDB.Value.Record
import Mathlib.Data.List.TakeWhile

/-!
# TransactionDB — declared types

`tdb_typespec_coerce` of `src/value/tdb_sqltype.c` and the conversions of `src/value/tdb_value.c`
that it uses: a value is checked against the type of its column, and converted where that loses
nothing. NULL passes every type.

`strtod`, the text of a double and the geometry code are parameters (`TypeLib`). A text is read as
a C string, up to its first zero byte, where the source passes a pointer. Converting a double that
is out of range to an integer is undefined in C; here it gives the nearest integer. For XML and
INTERVAL the source copies a text out of the buffer it has just freed; here the text is still
there.

* `coerce_integer`: a value that an integer type accepts becomes the integer it converts to.
* `strict_integer_iff`: a text is accepted as the number that it spells, except that `strtoll` stops at the ends
  of the 64-bit range, so that a BIGINT takes a larger number for the largest one, and gives 0 for blanks.
-/

namespace Tdb

inductive TypeId where
  | unknown
  | boolean | tinyint | smallint | integer | bigint | decimal
  | real | double
  | char | varchar | text
  | binary | varbinary | blob
  | date | time | timestamp
  | bit | varbit
  | json | xml | uuid | interval
  | geometry | point | geography
  | composite
  deriving DecidableEq, Repr

/-- `tdb_typespec`; a length or precision of 0 is none. -/
structure TypeSpec where
  id : TypeId
  length : Int32
  precision : Int32
  scale : Int32
  deriving DecidableEq, Repr

/-- A type without length, precision and scale. -/
def TypeSpec.plain (id : TypeId) : TypeSpec := ⟨id, 0, 0, 0⟩

/-- What is taken from the C library and from the geometry code. -/
structure TypeLib where
  /-- `strtod`: the bits of the double, and how many bytes of the text it takes. -/
  strtod : Bytes → UInt64 × Nat
  /-- A double printed with "%.17g". -/
  realText : UInt64 → Bytes
  /-- `tdb_geom_from_wkt`, or its reason. -/
  geomFromWkt : Bytes → Except (Option String) Bytes
  /-- `tdb_geom_type_of` is `TDB_GEOM_POINT`. -/
  geomIsPoint : Bytes → Bool
  geomValid : Bytes → Bool

/-! ## Characters and numbers -/

/-- `isspace` in the C locale. -/
def isSpace (c : UInt8) : Bool := c = 32 ∨ (9 ≤ c ∧ c ≤ 13)

/-- `isdigit`. -/
def isDigit (c : UInt8) : Bool := 48 ≤ c ∧ c ≤ 57

/-- A text as a C string. -/
def cstr (b : Bytes) : Bytes := b.takeWhile (· ≠ 0)

theorem cstr_eq {b : Bytes} (hb : ∀ c ∈ b, c ≠ 0) : cstr b = b :=
  List.takeWhile_eq_self_iff.mpr fun c hc => by simpa using hb c hc

/-- The number that digits stand for. -/
def digitsVal (ds : Bytes) : Nat := ds.foldl (fun n d => 10 * n + (d.toNat - 48)) 0

/-- `strtoll` in base 10: the number, and how many bytes it takes. A number that is too large
becomes the largest or smallest one. -/
def strtoll (s : Bytes) : Int64 × Nat :=
  let blank := s.takeWhile isSpace
  let rest := s.drop blank.length
  let neg := rest.head? = some 45
  let sign := if rest.head? = some 45 ∨ rest.head? = some 43 then 1 else 0
  let ds := (rest.drop sign).takeWhile isDigit
  if ds = [] then (0, 0)
  else
    let n : Int := if neg then -(digitsVal ds : Int) else digitsVal ds
    (Int64.ofInt (max (-2 ^ 63) (min n (2 ^ 63 - 1))), blank.length + sign + ds.length)

/-- `parse_int_exact`. -/
def parseIntExact (s : Bytes) : Option Int64 :=
  if s = [] then none
  else
    let (v, n) := strtoll s
    if (s.drop n).all isSpace then some v else none

/-- `parse_real_exact`. -/
def parseRealExact (lib : TypeLib) (s : Bytes) : Option UInt64 :=
  if s = [] then none
  else
    let (v, n) := lib.strtod s
    if (s.drop n).all isSpace then some v else none

/-- `tdb_value_as_int`. -/
def Value.asInt : Value → Int64
  | .int i => i
  | .real bits => (Float.ofBits bits).toInt64
  | .text b => (strtoll (cstr b)).1
  | _ => 0

/-- An integer printed with "%lld". -/
def intText (i : Int64) : Bytes := (toString i.toInt).toUTF8.toList

/-- `tdb_value_as_text` of a value that is not a composite; `none` for NULL. -/
def scalarText (lib : TypeLib) : Value → Option Bytes
  | .null => none
  | .int i => some (intText i)
  | .real bits => some (lib.realText bits)
  | .text b | .blob b | .composite b => some (cstr b)

/-- `tdb_value_as_text`: a composite is printed as its fields. -/
def Value.asText (lib : TypeLib) : Value → Option Bytes
  | .composite b =>
    let fields := match recordDecode b b.length with
      | .ok (vals, _) => vals
      | .error _ => []
    let texts := fields.map fun v => (scalarText lib v).getD "NULL".toUTF8.toList
    some (cstr ("(".toUTF8.toList ++ (texts.intersperse ", ".toUTF8.toList).flatten
      ++ ")".toUTF8.toList))
  | v => scalarText lib v

/-! ## Shapes of texts -/

/-- `decimal_digits`: the significant digits, and how many of them are behind the point. -/
def decimalDigits (s : Bytes) : Nat × Nat :=
  let step := fun (st : Nat × Nat × Bool × Bool) (c : UInt8) =>
    let (digits, frac, seenDot, started) := st
    if c = 45 ∨ c = 43 then st
    else if c = 46 then (digits, frac, true, started)
    else if isDigit c then
      -- leading zeros do not count
      if ¬ started ∧ c = 48 ∧ ¬ seenDot then st
      else (digits + 1, if seenDot then frac + 1 else frac, seenDot, true)
    else st
  let (digits, frac, _, _) := s.foldl step (0, 0, false, false)
  (if digits = 0 then 1 else digits, frac)

/-- Tags opened less tags closed, over the rest of an XML text. -/
def xmlDepth : Bytes → Int
  | [] => 0
  | c :: rest =>
    let here : Int :=
      if c = 60 then
        if rest.head? = some 47 then -1
        else if rest.head? ≠ some 63 ∧ rest.head? ≠ some 33 then 1
        else 0
      else if c = 47 ∧ rest.head? = some 62 then -1
      else 0
    here + xmlDepth rest

/-- At least one digit, and otherwise only these characters. -/
def digitsAmong (allowed : Bytes) (s : Bytes) : Bool :=
  s.all (fun c => isDigit c || allowed.contains c) && s.any isDigit

/-! ## Coercion -/

/-- The range of an integer type, `none` for BIGINT. -/
def TypeId.intRange : TypeId → Option (Int × Int)
  | .tinyint => some (-128, 127)
  | .smallint => some (-32768, 32767)
  | .integer => some (-2147483648, 2147483647)
  | _ => none

/-- The integer that a value is. -/
def exactInt : Value → Except (Status × String) Int64
  | .int i => .ok i
  | .real bits =>
    let r := Float.ofBits bits
    if r.toInt64.toFloat != r then .error (.mismatch, "real has fractional part") else .ok r.toInt64
  | .text b =>
    match parseIntExact (cstr b) with
    | some i => .ok i
    | none => .error (.mismatch, "not an integer")
  | _ => .error (.mismatch, "not an integer")

/-- `int_in_range`. -/
def intInRange (id : TypeId) (i : Int64) : Except (Status × String) Value :=
  match id.intRange with
  | some (lo, hi) =>
    if i.toInt < lo ∨ hi < i.toInt then .error (.constraint, "integer out of range for type")
    else .ok (.int i)
  | none => .ok (.int i)

/-- TINYINT, SMALLINT, INTEGER and BIGINT. -/
def coerceInt (id : TypeId) (v : Value) : Except (Status × String) Value :=
  match exactInt v with
  | .ok i => intInRange id i
  | .error e => .error e

/-- BOOLEAN. -/
def coerceBool : Value → Except (Status × String) Value
  | .int i => .ok (.int (if i ≠ 0 then 1 else 0))
  | .text b =>
    let s := cstr b
    if sameName s "true".toUTF8.toList ∨ s = "1".toUTF8.toList then .ok (.int 1)
    else if sameName s "false".toUTF8.toList ∨ s = "0".toUTF8.toList then .ok (.int 0)
    else .error (.mismatch, "not a boolean")
  | _ => .error (.mismatch, "not a boolean")

/-- REAL and DOUBLE. -/
def coerceReal (lib : TypeLib) : Value → Except (Status × String) Value
  | .real bits => .ok (.real bits)
  | .int i => .ok (.real i.toFloat.toBits)
  | .text b =>
    match parseRealExact lib (cstr b) with
    | some bits => .ok (.real bits)
    | none => .error (.mismatch, "not a number")
  | _ => .error (.mismatch, "not a number")

/-- DECIMAL, kept as text. -/
def coerceDecimal (lib : TypeLib) (ts : TypeSpec) (v : Value) : Except (Status × String) Value := do
  let b ← match v with
    | .int i => .ok (intText i)
    | .real bits => .ok (lib.realText bits)
    | .text b =>
      if (parseRealExact lib (cstr b)).isSome then .ok b else .error (.mismatch, "not a numeric value")
    | _ => .error (.mismatch, "not a numeric value")
  if 0 < ts.precision then
    let (digits, frac) := decimalDigits (cstr b)
    if ts.scale.toInt < frac then .error (.constraint, "too many fractional digits")
    else if ts.precision.toInt < digits then .error (.constraint, "exceeds numeric precision")
    else .ok (.text b)
  else .ok (.text b)

/-- Whether a text or blob is longer than declared. -/
def TypeSpec.tooLong (ts : TypeSpec) (b : Bytes) : Bool := 0 < ts.length ∧ ts.length.toInt < b.length

/-- CHAR, VARCHAR, TEXT and JSON. -/
def coerceText (lib : TypeLib) (ts : TypeSpec) (v : Value) : Except (Status × String) Value :=
  let b := match v with
    | .text b | .blob b => b
    | v => (v.asText lib).getD []
  if ts.tooLong b then .error (.constraint, "string longer than declared length") else .ok (.text b)

/-- What XML and INTERVAL make of a value that is not a text. -/
def materializeText (lib : TypeLib) : Value → Bytes
  | .text b => b
  | v => (v.asText lib).getD []

/-- XML. -/
def coerceXml (lib : TypeLib) (v : Value) : Except (Status × String) Value :=
  let b := materializeText lib v
  let s := (cstr b).dropWhile isSpace
  if s.head? ≠ some 60 then .error (.mismatch, "XML must begin with '<'")
  else if xmlDepth s ≠ 0 then .error (.mismatch, "unbalanced XML tags")
  else .ok (.text b)

/-- INTERVAL. -/
def coerceInterval (lib : TypeLib) : Value → Except (Status × String) Value
  | .int i => .ok (.int i)
  | v =>
    let b := materializeText lib v
    if digitsAmong "PYMDTHSWnsecmidayhouroweINTERVAL- :.+".toUTF8.toList (cstr b) then .ok (.text b)
    else .error (.mismatch, "malformed INTERVAL")

/-- BIT and BIT VARYING. -/
def coerceBits (ts : TypeSpec) : Value → Except (Status × String) Value
  | .text b =>
    if ¬ b.all (fun c => c = 48 || c = 49) then .error (.mismatch, "BIT string must contain only 0/1")
    else if ts.id = .bit ∧ 0 < ts.length ∧ (b.length : Int) ≠ ts.length.toInt then
      .error (.constraint, "BIT(N) length mismatch")
    else if ts.id = .varbit ∧ ts.tooLong b then .error (.constraint, "BIT VARYING(N) too long")
    else .ok (.text b)
  | .blob b => .ok (.blob b)
  | _ => .error (.mismatch, "not a bit string")

/-- UUID. -/
def coerceUuid : Value → Except (Status × String) Value
  | .text b => if b.length ≠ 36 then .error (.constraint, "UUID must be 36 chars") else .ok (.text b)
  | .blob b =>
    if b.length ≠ 16 then .error (.constraint, "UUID blob must be 16 bytes") else .ok (.blob b)
  | _ => .error (.mismatch, "not a UUID")

/-- COMPOSITE. -/
def coerceComposite : Value → Except (Status × String) Value
  | .composite b | .blob b => .ok (.composite b)
  | _ => .error (.mismatch, "not a composite value")

/-- BINARY, VARBINARY and BLOB. -/
def coerceBinary (ts : TypeSpec) : Value → Except (Status × String) Value
  | .blob b =>
    if ts.tooLong b then .error (.constraint, "binary longer than declared length") else .ok (.blob b)
  | _ => .error (.mismatch, "not binary data")

/-- DATE, TIME and TIMESTAMP. -/
def coerceDate : Value → Except (Status × String) Value
  | .int i => .ok (.int i)
  | .text b =>
    if digitsAmong "-:T.+Z /".toUTF8.toList (cstr b) then .ok (.text b)
    else .error (.mismatch, "malformed date/time")
  | _ => .error (.mismatch, "not a date/time")

/-- GEOMETRY, POINT and GEOGRAPHY. -/
def coerceGeom (lib : TypeLib) (ts : TypeSpec) : Value → Except (Status × String) Value
  | .text b =>
    match lib.geomFromWkt (cstr b) with
    | .error why => .error (.mismatch, why.getD "invalid geometry WKT")
    | .ok g =>
      if ts.id = .point ∧ ¬ lib.geomIsPoint g then .error (.constraint, "expected a POINT geometry")
      else .ok (.blob g)
  | .blob b => if lib.geomValid b then .ok (.blob b) else .error (.mismatch, "invalid geometry blob")
  | _ => .error (.mismatch, "not a geometry")

/-- `tdb_typespec_coerce`. -/
def typespecCoerce (lib : TypeLib) (ts : TypeSpec) (v : Value) : Except (Status × String) Value :=
  if v = .null then .ok .null
  else
    match ts.id with
    | .boolean => coerceBool v
    | .tinyint | .smallint | .integer | .bigint => coerceInt ts.id v
    | .real | .double => coerceReal lib v
    | .decimal => coerceDecimal lib ts v
    | .char | .varchar | .text | .json => coerceText lib ts v
    | .xml => coerceXml lib v
    | .interval => coerceInterval lib v
    | .bit | .varbit => coerceBits ts v
    | .uuid => coerceUuid v
    | .composite => coerceComposite v
    | .binary | .varbinary | .blob => coerceBinary ts v
    | .date | .time | .timestamp => coerceDate v
    | .geometry | .point | .geography => coerceGeom lib ts v
    | .unknown => .ok v

/-! ## Integer types -/

/-- The types of a key that stands for the row id. -/
def TypeId.isKeyType : TypeId → Bool
  | .integer | .bigint | .smallint | .tinyint => true
  | _ => false

/-- A number that the whole text spells is the one its conversion gives. -/
theorem parseIntExact_eq {s : Bytes} {i : Int64} (h : parseIntExact s = some i) :
    (strtoll s).1 = i := by
  unfold parseIntExact at h
  split at h
  · cases h
  · dsimp only at h
    split at h
    · exact Option.some.inj h
    · cases h

theorem exactInt_eq {v : Value} {i : Int64} (h : exactInt v = .ok i) : i = v.asInt := by
  cases v with
  | int j => exact (Except.ok.inj h).symm
  | real bits =>
    simp only [exactInt] at h
    split at h
    · cases h
    · exact (Except.ok.inj h).symm
  | text b =>
    simp only [exactInt] at h
    split at h
    · rename_i j hparse
      cases h
      exact (parseIntExact_eq hparse).symm
    · cases h
  | null => cases h
  | blob b => cases h
  | composite b => cases h

theorem intInRange_eq {id : TypeId} {i : Int64} {w : Value} (h : intInRange id i = .ok w) :
    w = .int i := by
  unfold intInRange at h
  split at h
  · split at h
    · cases h
    · exact (Except.ok.inj h).symm
  · exact (Except.ok.inj h).symm

theorem coerceInt_eq {id : TypeId} {v w : Value} (h : coerceInt id v = .ok w) : w = .int v.asInt := by
  unfold coerceInt at h
  split at h
  · rename_i i hexact
    rw [intInRange_eq h, exactInt_eq hexact]
  · cases h

/-- A column of an integer type takes the integers of its range. -/
theorem typespecCoerce_int (lib : TypeLib) {ts : TypeSpec} (hts : ts.id.isKeyType = true) {v : Value}
    (hv : v ≠ .null) : typespecCoerce lib ts v = coerceInt ts.id v := by
  rw [typespecCoerce, if_neg hv]
  revert hts
  cases ts.id <;> simp [TypeId.isKeyType]

/-- **A value that an integer type accepts is stored as the integer it converts to.** -/
theorem coerce_integer {lib : TypeLib} {ts : TypeSpec} (hts : ts.id.isKeyType = true) {v w : Value}
    (hv : v ≠ .null) (h : typespecCoerce lib ts v = .ok w) : w = .int v.asInt := by
  rw [typespecCoerce_int lib hts hv] at h
  exact coerceInt_eq h

/-! ## Texts in integer columns -/

section Texts

open List

/-- The number that blanks, a sign, digits and blanks spell. -/
def spelledInt (s : Bytes) : Option Int :=
  let rest := s.dropWhile isSpace
  let num := rest.drop (if rest.head? = some 45 ∨ rest.head? = some 43 then 1 else 0)
  let ds := num.takeWhile isDigit
  if ds ≠ [] ∧ (num.dropWhile isDigit).all isSpace then
    some (if rest.head? = some 45 then -(digitsVal ds : Int) else digitsVal ds)
  else none

/-- The number is one of the type. -/
def TypeId.HasInt (id : TypeId) (n : Int) : Prop :=
  let range := id.intRange.getD (-2 ^ 63, 2 ^ 63 - 1)
  range.1 ≤ n ∧ n ≤ range.2

instance (id : TypeId) (n : Int) : Decidable (id.HasInt n) := inferInstanceAs (Decidable (_ ∧ _))

/-- The text is accepted exactly if it spells a number of the type, as that number. -/
def StrictInt (lib : TypeLib) (ts : TypeSpec) (s : Bytes) : Prop :=
  (∀ w, typespecCoerce lib ts (.text s) = .ok w ↔
    ∃ n, spelledInt s = some n ∧ ts.id.HasInt n ∧ w = .int (Int64.ofInt n)) ∧
  ∀ e, typespecCoerce lib ts (.text s) = .error e → e.1 = .mismatch ∨ e.1 = .constraint

/-- The nearest number of 64 bits. -/
def clampInt (n : Int) : Int64 := Int64.ofInt (max (-2 ^ 63) (min n (2 ^ 63 - 1)))

theorem toInt_clampInt (n : Int) : (clampInt n).toInt = max (-2 ^ 63) (min n (2 ^ 63 - 1)) :=
  Int64.toInt_ofInt_of_le (by omega) (by omega)

theorem drop_length_takeWhile {α : Type} (p : α → Bool) (l : List α) :
    l.drop (l.takeWhile p).length = l.dropWhile p := by
  calc _ = (l.takeWhile p ++ l.dropWhile p).drop (l.takeWhile p).length := by
        rw [takeWhile_append_dropWhile]
    _ = _ := drop_left

theorem spelledInt_blank {s : Bytes} (h : s.all isSpace = true) : spelledInt s = none := by
  simp [spelledInt, dropWhile_eq_nil_iff.mpr (all_eq_true.mp h)]

/-- What `strtoll` reads: the number of 64 bits that is nearest, or 0 where none is spelled. -/
theorem parseIntExact_spelled (s : Bytes) : parseIntExact s = match spelledInt s with
    | some n => some (clampInt n)
    | none => if s ≠ [] ∧ s.all isSpace = true then some 0 else none := by
  by_cases hs : s = []
  · simp [hs, parseIntExact, spelledInt]
  by_cases hblank : s.all isSpace = true
  · have hnone : s.dropWhile isSpace = [] := dropWhile_eq_nil_iff.mpr (all_eq_true.mp hblank)
    simp [parseIntExact, strtoll, spelledInt_blank hblank, drop_length_takeWhile, hnone, hs, hblank]
  simp only [parseIntExact, if_neg hs, strtoll, drop_length_takeWhile, spelledInt]
  set rest := s.dropWhile isSpace with hrest
  set n := if rest.head? = some 45 ∨ rest.head? = some 43 then 1 else 0
  have hdrop : s.drop ((s.takeWhile isSpace).length + n + ((rest.drop n).takeWhile isDigit).length) =
      (rest.drop n).dropWhile isDigit := by
    rw [← drop_drop, ← drop_drop, drop_length_takeWhile, ← hrest, drop_length_takeWhile]
  by_cases hds : (rest.drop n).takeWhile isDigit = [] <;>
    by_cases hall : ((rest.drop n).dropWhile isDigit).all isSpace = true <;>
    simp [hds, hdrop, hall, hblank, clampInt]

theorem TypeId.HasInt.bounds {id : TypeId} {n : Int} (h : id.HasInt n) : -2 ^ 63 ≤ n ∧ n < 2 ^ 63 := by
  cases id <;> simp only [TypeId.HasInt, TypeId.intRange, Option.getD_some, Option.getD_none] at h <;> omega

section Coerce

variable {ts : TypeSpec} (hts : ts.id.isKeyType = true)

include hts

theorem intInRange_clampInt (n : Int) : intInRange ts.id (clampInt n) = if ts.id = .bigint ∨ ts.id.HasInt n then
      .ok (.int (clampInt n)) else .error (.constraint, "integer out of range for type") := by
  revert hts
  cases ts.id with
  | tinyint | smallint | integer =>
    simp only [intInRange, TypeId.intRange, toInt_clampInt, TypeId.HasInt, Option.getD_some, reduceCtorEq, false_or]
    intro
    split <;> split <;> first | rfl | omega
  | bigint => simp [intInRange, TypeId.intRange]
  | _ => exact fun hid => by cases hid

theorem coerce_spelled (lib : TypeLib) {s : Bytes} (hs : 0 ∉ s) : typespecCoerce lib ts (.text s) =
    match parseIntExact s with
    | some i => intInRange ts.id i
    | none => .error (.mismatch, "not an integer") := by
  have hcstr : cstr s = s := cstr_eq fun c hc heq => hs (heq ▸ hc)
  rw [typespecCoerce_int lib hts (by simp), coerceInt, exactInt, hcstr]
  cases parseIntExact s <;> rfl

/-- **An integer column takes a text exactly as the number of its type that it spells**, unless the text is of
blanks only, or the column is a BIGINT and the number too large. -/
theorem strict_integer_iff (lib : TypeLib) {s : Bytes} (hs : 0 ∉ s) : StrictInt lib ts s ↔
    (s.all isSpace = true → s = []) ∧ (ts.id = .bigint → ∀ n ∈ spelledInt s, -2 ^ 63 ≤ n ∧ n < 2 ^ 63) := by
  rw [StrictInt, coerce_spelled hts lib hs, parseIntExact_spelled]
  cases hn : spelledInt s with
  | none =>
    by_cases hblank : s ≠ [] ∧ s.all isSpace = true
    · -- blanks are read as 0
      have hzero : intInRange ts.id 0 = .ok (.int 0) := by
        revert hts
        cases ts.id <;> simp [TypeId.isKeyType, intInRange, TypeId.intRange]
      simp only [if_pos hblank, hzero]
      exact iff_of_false (fun h => by simpa using h.1 (.int 0)) fun h => hblank.1 (h.1 hblank.2)
    · simp only [if_neg hblank]
      refine iff_of_true ⟨by simp, fun e he => ?_⟩ ⟨fun hall => ?_, by simp⟩
      · cases he
        exact .inl rfl
      · by_contra hne
        exact hblank ⟨hne, hall⟩
  | some n =>
    have hblank : s.all isSpace = true → s = [] := fun hall => by
      rw [spelledInt_blank hall] at hn
      cases hn
    simp only [intInRange_clampInt hts]
    by_cases hin : ts.id.HasInt n
    · have hclamp : clampInt n = Int64.ofInt n := by
        have := hin.bounds
        rw [clampInt, min_eq_left (by omega), max_eq_right (by omega)]
      rw [if_pos (.inr hin), hclamp]
      refine iff_of_true ⟨fun w => by simp [hin, eq_comm], fun e he => by cases he⟩ ⟨hblank, fun _ m hm => ?_⟩
      cases hm
      exact hin.bounds
    · by_cases hbig : ts.id = .bigint
      · rw [if_pos (.inl hbig)]
        refine iff_of_false (fun h => hin ?_) fun h => hin ?_
        · have hw := h.1 (.int (clampInt n))
          simp only [true_iff, Option.some.injEq, exists_eq_left'] at hw
          exact hw.1
        · have hn := h.2 hbig n rfl
          rw [hbig]
          exact ⟨hn.1, Int.le_sub_one_of_lt hn.2⟩
      · rw [if_neg (not_or.mpr ⟨hbig, hin⟩)]
        refine iff_of_true ⟨fun w => by simp [hin], fun e he => ?_⟩ ⟨hblank, fun h => absurd h hbig⟩
        cases he
        exact .inr rfl

end Coerce

end Texts

/-- A library without doubles and geometry. -/
def Sql.bareLib : TypeLib := ⟨fun _ => (0, 0), fun _ => [], fun _ => .error none, fun _ => false, fun _ => false⟩

theorem strict_integer_digit : StrictInt Sql.bareLib (.plain .tinyint) [55] :=
  (strict_integer_iff rfl Sql.bareLib (by decide)).mpr ⟨by decide, by decide⟩

/-- A BIGINT takes 2⁶³ for the number before it. -/
theorem strict_integer_too_large : ¬ StrictInt Sql.bareLib (.plain .bigint) "9223372036854775808".toUTF8.toList := by
  rintro ⟨h, -⟩
  obtain ⟨n, hn, hin, -⟩ := (h (.int 9223372036854775807)).mp (by decide +kernel)
  obtain rfl : 9223372036854775808 = n := Option.some.inj (.trans (by decide +kernel) hn)
  exact absurd hin (by decide)

end Tdb
