import TransactionDB.Lib.Radix
import TransactionDB.Sql.ExprParser
import TransactionDB.Sql.Tokens

/-!
# TransactionDB — literals in SQL text

From text to value: the tokens of `tdb_lex_next`, what `parse_number` of `src/sql/tdb_lexer.c` and
`decode_string` and `parse_primary` of `src/sql/tdb_parser.c` make of a literal, the parse and the
evaluation (`sqlValue`).

`parse_number` copies at most 79 bytes and leaves the base to `strtoll`. So a decimal literal that begins
with a zero is read in base eight, up to the first digit that is not octal, one that is too large becomes
the largest integer, and a long hexadecimal one loses its last digits (`numeric_literal_iff`).
-/

namespace Tdb.Sql

open Radix List

/-! ## Numbers -/

/-- The value of a digit in a base up to 16. -/
def hexVal (c : UInt8) : Nat :=
  if isDigit c then c.toNat - 48 else if chr 'a' ≤ c then c.toNat - 87 else c.toNat - 55

/-- The base that `strtoll` finds, and the digits in it. -/
def autoBase : Bytes → Nat × Bytes
  | 48 :: x :: ds => if x = chr 'x' ∨ x = chr 'X' then (16, ds) else (8, 48 :: x :: ds)
  | [48] => (8, [48])
  | ds => (10, ds)

/-- `strtoll` with base 0, of a text without a sign. -/
def strtollAuto (buf : Bytes) : Int64 :=
  let (base, ds) := autoBase buf
  Int64.ofNat (min (value base hexVal (ds.takeWhile fun c => isXDigit c && hexVal c < base)) (2 ^ 63 - 1))

/-- `parse_number` with its buffer, and the literal that `parse_primary` makes of it. -/
def parseNumber (lib : TypeLib) (t : Token) : Value :=
  let buf := t.text.take 79
  if t.kind = .integer then .int (strtollAuto buf) else .real (lib.strtod buf).1

/-! ## Texts and blobs -/

/-- `decode_string`. -/
def decodeString : Bytes → Bytes
  | [] => []
  | [c] => [c]
  | c :: c' :: s =>
    if c = quote ∧ c' = quote then c :: decodeString s else c :: decodeString (c' :: s)

/-- The bytes of hexadecimal digits. -/
def decodeHex : Bytes → Option Bytes
  | hi :: lo :: s =>
    if isXDigit hi ∧ isXDigit lo then (decodeHex s).map (UInt8.ofNat (hexVal hi * 16 + hexVal lo) :: ·)
    else none
  | _ => some []

/-- The literal of a blob token. -/
def blobTok (s : Bytes) : ExprTok :=
  if s.length % 2 = 1 then .badLit "odd-length blob literal"
  else
    match decodeHex s with
    | some b => .lit (.blob b)
    | none => .badLit "invalid hex digit in blob literal"

/-! ## Expressions -/

/-- The token as the parser of expressions sees it; `none` for the kinds that it is not modelled for. -/
def exprTok (lib : TypeLib) (t : Token) : Option ExprTok :=
  match t.kind with
  | .integer | .float => some (.lit (parseNumber lib t))
  | .string => some (.lit (.text (cstr (decodeString t.text))))
  | .blob => some (blobTok t.text)
  | .id => some (.id t.text)
  | .lp => some .lp
  | .rp => some .rp
  | .comma => some .comma
  | .plus => some (.bin .plus)
  | .minus => some (.bin .minus)
  | .star => some (.bin .star)
  | .slash => some (.bin .slash)
  | .percent => some (.bin .percent)
  | .eq => some (.bin (.cmp .eq))
  | .ne => some (.bin (.cmp .ne))
  | .lt => some (.bin (.cmp .lt))
  | .le => some (.bin (.cmp .le))
  | .gt => some (.bin (.cmp .gt))
  | .ge => some (.bin (.cmp .ge))
  | .concat => some (.bin .concat)
  | .bitand => some (.bin .bitAnd)
  | .bitor => some (.bin .bitOr)
  | .shl => some (.bin .shl)
  | .shr => some (.bin .shr)
  | .bitnot => some .bitNot
  | .kw .nullKw => some .null
  | .kw .trueKw => some (.lit (.int 1))
  | .kw .falseKw => some (.lit (.int 0))
  | .kw .andKw => some (.bin .and)
  | .kw .orKw => some (.bin .or)
  | .kw .notKw => some .not
  | .kw .isKw => some .is
  | .kw .inKw => some .inKw
  | .kw .like => some .like
  | .kw .glob => some .glob
  | .kw .between => some .between
  | _ => none

/-- The tokens of a text. -/
def exprToks (lib : TypeLib) : Nat → Bytes → Option (List ExprTok)
  | 0, _ => none
  | n + 1, z =>
    if (lexNext z).1.kind = .eof then some []
    else (exprTok lib (lexNext z).1).bind fun tok => (exprToks lib n (lexNext z).2).map (tok :: ·)

/-- The expression of a text. -/
def sqlExpr (lib : TypeLib) (text : Bytes) : Option Expr :=
  (exprToks lib (text.length + 1) text).bind fun toks =>
    match tdbParseExpression toks with
    | .ok e _ => some e
    | _ => none

/-- The value of a text as an SQL expression; `none` if it is refused. -/
def sqlValue (L : EvalLib) (c : Ectx) (text : Bytes) : Option Value :=
  (sqlExpr L.types text).map fun e => (eval L c e).2

section Read

variable {L : EvalLib} {c : Ectx} {text rest : Bytes} {t : Token} {v : Value}

/-- A text of one token. -/
theorem sqlValue_one (tok : ExprTok) (hne : text ≠ []) (hlex : lexNext text = (t, [])) (heof : t.kind ≠ .eof)
    (htok : exprTok L.types t = some tok) {e : Expr} (hparse : tdbParseExpression [tok] = .ok e []) :
    sqlValue L c text = some (eval L c e).2 := by
  obtain ⟨b, text, rfl⟩ := exists_cons_of_ne_nil hne
  have hend : (lexNext []).1.kind = .eof := rfl
  simp [sqlValue, sqlExpr, exprToks, hlex, heof, htok, hend, hparse]

/-- A minus sign and a literal. -/
theorem sqlValue_neg {tok : Token} (htwo : 2 ≤ text.length) (hlex : lexNext text = (tok, rest)) (hkind : tok.kind = .minus)
    (hlex' : lexNext rest = (t, [])) (heof : t.kind ≠ .eof) (htok : exprTok L.types t = some (.lit v)) :
    sqlValue L c text = some (unaryValue .minus v) := by
  obtain ⟨b, text, rfl⟩ := exists_cons_of_ne_nil (ne_nil_of_length_pos (l := text) (by omega))
  obtain ⟨b', text, rfl⟩ := exists_cons_of_ne_nil (ne_nil_of_length_pos (l := text) (by simp at htwo; omega))
  have hend : (lexNext []).1.kind = .eof := rfl
  have hparse : tdbParseExpression [.bin .minus, .lit v] = .ok (.unary .minus (.literal v)) [] := rfl
  have hminus : exprTok L.types tok = some (.bin .minus) := by rw [exprTok, hkind]
  simp [sqlValue, sqlExpr, exprToks, hlex, hlex', hkind, heof, hminus, htok, hend, hparse, eval]

end Read

/-! ## Numeric literals -/

/-- A numeral of SQL: decimal digits, or hexadecimal ones behind `0x`. -/
inductive Numeral where
  | dec (d : Bytes) (hne : d ≠ []) (hd : ∀ c ∈ d, isDigit c = true)
  | hex (x : UInt8) (hx : x = chr 'x' ∨ x = chr 'X') (h : Bytes) (hne : h ≠ []) (hh : ∀ c ∈ h, isXDigit c = true)

def Numeral.text : Numeral → Bytes
  | .dec d _ _ => d
  | .hex x _ h _ _ => chr '0' :: x :: h

/-- The number that it denotes. -/
def Numeral.num : Numeral → Nat
  | .dec d _ _ => value 10 hexVal d
  | .hex _ _ h _ _ => value 16 hexVal h

/-- It means what it says: a number that fits is that number, and a decimal one that does not is refused
or a REAL. -/
def Numeral.Faithful (L : EvalLib) (c : Ectx) (lit : Numeral) : Prop :=
  if lit.num < 2 ^ 63 then sqlValue L c lit.text = some (.int (Int64.ofNat lit.num))
  else
    match lit with
    | .dec d _ _ => ∀ v, sqlValue L c d = some v → ∃ bits, v = .real bits
    | .hex .. => True

/-- What is read right: zeros, and numbers that fit in the buffer, whose decimal digits begin with no zero
unless the number is below eight. -/
def Numeral.Plain : Numeral → Prop
  | .dec d _ _ => value 10 hexVal d = 0 ∨
      d.length ≤ 79 ∧ value 10 hexVal d < 2 ^ 63 ∧ (d.head? ≠ some (chr '0') ∨ value 10 hexVal d < 8)
  | .hex _ _ h _ _ => value 16 hexVal h < 2 ^ 63 → value 16 hexVal h = 0 ∨ h.length ≤ 77

theorem isDigit_facts (c : UInt8) : isDigit c = true → (isSpace c = false ∧ c ≠ chr '-' ∧ c ≠ chr '/') ∧
    (c ≠ chr 'x' ∧ c ≠ chr 'X') ∧ isIdStart c = false ∧ isXDigit c = true ∧ hexVal c < 10 :=
  forall_byte (p := fun c => isDigit c = true → (isSpace c = false ∧ c ≠ chr '-' ∧ c ≠ chr '/') ∧
    (c ≠ chr 'x' ∧ c ≠ chr 'X') ∧ isIdStart c = false ∧ isXDigit c = true ∧ hexVal c < 10) (by decide +kernel) c

theorem hexVal_lt (c : UInt8) : isXDigit c = true → hexVal c < 16 :=
  forall_byte (p := fun c => isXDigit c = true → hexVal c < 16) (by decide +kernel) c

/-- A numeral is one token. -/
theorem lexNext_digit {c : UInt8} (hc : isDigit c = true) (rest : Bytes) :
    lexNext (c :: rest) = scanNumber (c :: rest) := by
  obtain ⟨⟨hspace, hminus, hslash⟩, ⟨hx, hX⟩, hid, -⟩ := isDigit_facts c hc
  rw [lexNext, skipTrivia_start hspace hminus hslash]
  simp [scanToken, hx, hX, hid, hc]

theorem lexNext_dec {d : Bytes} (hne : d ≠ []) (hd : ∀ c ∈ d, isDigit c = true) :
    lexNext d = (⟨.integer, d, d.length⟩, []) := by
  obtain ⟨c, d, rfl⟩ := exists_cons_of_ne_nil hne
  rw [lexNext_digit (hd c (by simp))]
  have hall : (c :: d).takeWhile isDigit = c :: d := takeWhile_eq_self_iff.mpr hd
  cases d with
  | nil => simp [scanNumber, hall, numberTail]
  | cons x d =>
    obtain ⟨-, ⟨hx, hX⟩, -⟩ := isDigit_facts x (hd x (by simp))
    simp [scanNumber, hall, numberTail, hx, hX]

theorem lexNext_hex {x : UInt8} (hx : x = chr 'x' ∨ x = chr 'X') {h : Bytes} (hh : ∀ c ∈ h, isXDigit c = true) :
    lexNext (chr '0' :: x :: h) = (⟨.integer, chr '0' :: x :: h, h.length + 2⟩, []) := by
  have hall : h.takeWhile isXDigit = h := takeWhile_eq_self_iff.mpr hh
  rw [lexNext_digit (by decide)]
  simp [scanNumber, hx, hall, Nat.add_comm 2]

theorem sqlValue_numeral (L : EvalLib) (c : Ectx) (lit : Numeral) :
    sqlValue L c lit.text = some (.int (strtollAuto (lit.text.take 79))) := by
  have hlex : lexNext lit.text = (⟨.integer, lit.text, lit.text.length⟩, []) := by
    cases lit with
    | dec d hne hd => exact lexNext_dec hne hd
    | hex x hx h hne hh => exact lexNext_hex hx hh
  have hne : lit.text ≠ [] := by
    cases lit with
    | dec d hne hd => exact hne
    | hex x hx h hne hh => exact cons_ne_nil _ _
  refine sqlValue_one (.lit (.int (strtollAuto (lit.text.take 79)))) hne hlex (by simp) ?_ rfl
  simp [exprTok, parseNumber, Token.text]

/-! ### What `strtoll` makes of it -/

/-- A digit that counts in base eight. -/
def isOctal (c : UInt8) : Bool := isXDigit c && hexVal c < 8

theorem strtollAuto_dec {d : Bytes} (hd : ∀ c ∈ d, isDigit c = true) (hzero : d.head? ≠ some (chr '0')) :
    strtollAuto d = Int64.ofNat (min (value 10 hexVal d) (2 ^ 63 - 1)) := by
  have hbase : autoBase d = (10, d) := by
    unfold autoBase
    split
    · exact absurd rfl hzero
    · exact absurd rfl hzero
    · rfl
  have hall : d.takeWhile (fun c => isXDigit c && hexVal c < 10) = d :=
    takeWhile_eq_self_iff.mpr fun c hc => by
      obtain ⟨-, -, -, hx, hlt⟩ := isDigit_facts c (hd c hc)
      simp [hx, hlt]
  simp only [strtollAuto, hbase, hall]

theorem strtollAuto_octal {d : Bytes} (hd : ∀ c ∈ d, isDigit c = true) (hzero : d.head? = some (chr '0')) :
    strtollAuto d = Int64.ofNat (min (value 8 hexVal (d.takeWhile isOctal)) (2 ^ 63 - 1)) := by
  obtain ⟨d, rfl⟩ := head?_eq_some_iff.mp hzero
  have hbase : autoBase (chr '0' :: d) = (8, chr '0' :: d) := by
    cases d with
    | nil => rfl
    | cons x d =>
      obtain ⟨-, ⟨hx, hX⟩, -⟩ := isDigit_facts x (hd x (by simp))
      exact if_neg (by simp [hx, hX])
  simp only [strtollAuto, hbase]
  rfl

theorem strtollAuto_hex {x : UInt8} (hx : x = chr 'x' ∨ x = chr 'X') {h : Bytes} (hh : ∀ c ∈ h, isXDigit c = true) :
    strtollAuto (chr '0' :: x :: h) = Int64.ofNat (min (value 16 hexVal h) (2 ^ 63 - 1)) := by
  have hbase : autoBase (chr '0' :: x :: h) = (16, h) := if_pos hx
  have hall : h.takeWhile (fun c => isXDigit c && hexVal c < 16) = h :=
    takeWhile_eq_self_iff.mpr fun c hc => by simp [hh c hc, hexVal_lt c (hh c hc)]
  simp only [strtollAuto, hbase, hall]

theorem ofNat_min_eq_iff {w n : Nat} (hw : w ≤ n) (hn : n < 2 ^ 63) :
    Int64.ofNat (min w (2 ^ 63 - 1)) = Int64.ofNat n ↔ w = n := by
  rw [Nat.min_eq_left (by omega)]
  constructor
  · intro h
    have hint := congrArg Int64.toInt h
    rw [Int64.toInt_ofNat_of_lt (by omega), Int64.toInt_ofNat_of_lt hn] at hint
    exact_mod_cast hint
  · exact congrArg Int64.ofNat

/-- An octal reading of decimal digits is right for zero and for one digit in the buffer. -/
theorem octal_eq_iff {d : Bytes} (hd : ∀ c ∈ d, isDigit c = true) (hzero : d.head? = some (chr '0')) :
    value 8 hexVal ((d.take 79).takeWhile isOctal) = value 10 hexVal d ↔
      value 10 hexVal d = 0 ∨ d.length ≤ 79 ∧ value 10 hexVal d < 8 := by
  obtain ⟨r, hr⟩ : (d.take 79).takeWhile isOctal <+: d :=
    (List.takeWhile_prefix _).trans (List.take_prefix 79 d)
  have hlen : ((d.take 79).takeWhile isOctal).length ≤ 79 :=
    (List.takeWhile_prefix isOctal).length_le.trans (length_take_le 79 d)
  have hdigit : ∀ a ∈ (d.take 79).takeWhile isOctal, hexVal a < 8 := by
    intro a ha
    have hoct := mem_takeWhile_imp ha
    simp only [isOctal, Bool.and_eq_true, decide_eq_true_eq] at hoct
    exact hoct.2
  have hall : d.length ≤ 79 → value 10 hexVal d < 8 → (d.take 79).takeWhile isOctal = d := by
    intro hle hlt
    rw [take_of_length_le hle, takeWhile_eq_self_iff]
    intro c hc
    have hc8 : hexVal c < 8 := (digit_le_value (by decide) hc).trans_lt hlt
    obtain ⟨-, -, -, hx, -⟩ := isDigit_facts c (hd c hc)
    simp [isOctal, hx, hc8]
  generalize (d.take 79).takeWhile isOctal = u at *
  subst hr
  have hbase : value 8 hexVal u ≤ value 10 hexVal u := value_mono (by decide) u
  have hpre : value 10 hexVal u ≤ value 10 hexVal (u ++ r) := value_le_append (by decide) u r
  have hsame : value 8 hexVal u = value 10 hexVal u ↔ value 10 hexVal u < 8 ∨ u = [] :=
    value_eq_value_iff (by decide) hdigit
  have hcut : value 10 hexVal u = value 10 hexVal (u ++ r) ↔ r = [] ∨ value 10 hexVal (u ++ r) = 0 :=
    value_eq_append_iff (by decide) u r
  constructor
  · intro h
    rcases hcut.mp (by omega) with rfl | h0
    · rcases hsame.mp (by omega) with hlt | rfl
      · rw [append_nil]
        exact Or.inr ⟨hlen, hlt⟩
      · cases hzero
    · exact Or.inl h0
  · rintro (h0 | ⟨hle, hlt⟩)
    · omega
    · have hu := hall hle hlt
      rw [← hu] at hlt ⊢
      exact hsame.mpr (Or.inl hlt)

theorem take_eq_iff {b : Nat} (hb : 2 ≤ b) (k : Nat) (d : Bytes) :
    value b hexVal (d.take k) = value b hexVal d ↔ d.length ≤ k ∨ value b hexVal d = 0 := by
  have hcut : value b hexVal (d.take k) = value b hexVal (d.take k ++ d.drop k) ↔ _ :=
    value_eq_append_iff hb (d.take k) (d.drop k)
  rwa [take_append_drop, drop_eq_nil_iff] at hcut

theorem take_le (k : Nat) (d : Bytes) {b : Nat} (hb : 0 < b) : value b hexVal (d.take k) ≤ value b hexVal d := by
  have hle : value b hexVal (d.take k) ≤ value b hexVal (d.take k ++ d.drop k) := value_le_append hb _ _
  rwa [take_append_drop] at hle

theorem octal_le (d : Bytes) : value 8 hexVal ((d.take 79).takeWhile isOctal) ≤ value 10 hexVal d := by
  obtain ⟨r, hr⟩ : (d.take 79).takeWhile isOctal <+: d :=
    (List.takeWhile_prefix _).trans (List.take_prefix 79 d)
  have hpre : value 10 hexVal ((d.take 79).takeWhile isOctal) ≤ value 10 hexVal (_ ++ r) :=
    value_le_append (by decide) _ r
  rw [hr] at hpre
  exact (value_mono (by decide) _).trans hpre

/-- **Numeric literals**: a numeral means what it says just if it is plain. -/
theorem numeric_literal_iff (L : EvalLib) (c : Ectx) (lit : Numeral) : lit.Faithful L c ↔ lit.Plain := by
  have hread := sqlValue_numeral L c lit
  cases lit with
  | dec d hne hd =>
    have htake : ∀ c ∈ d.take 79, isDigit c = true := fun c hc => hd c (mem_of_mem_take hc)
    simp only [Numeral.text] at hread
    simp only [Numeral.Faithful, Numeral.text, Numeral.num, Numeral.Plain, hread]
    split
    · rename_i hn
      by_cases hzero : d.head? = some (chr '0')
      · have hhead : (d.take 79).head? = some (chr '0') := by
          obtain ⟨d, rfl⟩ := head?_eq_some_iff.mp hzero
          rfl
        rw [strtollAuto_octal htake hhead]
        simp only [Option.some.injEq, Value.int.injEq, ofNat_min_eq_iff (octal_le d) hn, octal_eq_iff hd hzero, hzero,
          ne_eq, not_true_eq_false, false_or]
        omega
      · have hhead : (d.take 79).head? ≠ some (chr '0') := by
          cases d with
          | nil => exact absurd rfl hne
          | cons b d => exact hzero
        rw [strtollAuto_dec htake hhead]
        simp only [Option.some.injEq, Value.int.injEq, ofNat_min_eq_iff (take_le 79 d (by decide)) hn,
          take_eq_iff (show 2 ≤ 10 by decide) 79 d]
        simp only [ne_eq, hzero, not_false_eq_true, true_or, and_true]
        omega
    · rename_i hn
      simp only [Option.some.injEq, forall_eq', reduceCtorEq, exists_false, false_iff]
      omega
  | hex x hx h hne hh =>
    have htake : ∀ c ∈ h.take 77, isXDigit c = true := fun c hc => hh c (mem_of_mem_take hc)
    simp only [Numeral.text] at hread
    rw [show (chr '0' :: x :: h).take 79 = chr '0' :: x :: h.take 77 from rfl, strtollAuto_hex hx htake] at hread
    simp only [Numeral.Faithful, Numeral.text, Numeral.num, Numeral.Plain, hread]
    split
    · rename_i hn
      simp only [Option.some.injEq, Value.int.injEq, ofNat_min_eq_iff (take_le 77 h (by decide)) hn,
        take_eq_iff (show 2 ≤ 16 by decide) 77 h]
      omega
    · rename_i hn
      exact ⟨fun _ hlt => absurd hlt hn, fun _ => trivial⟩

/-- `010`. -/
theorem numeric_literal_ten :
    ¬ (Numeral.dec [48, 49, 48] (by decide) (all_eq_true.mp rfl)).Faithful bareEval bareCtx := by
  intro h
  have hten : sqlValue bareEval bareCtx [48, 49, 48] = some (.int 10) := h
  have hread := sqlValue_numeral bareEval bareCtx (.dec [48, 49, 48] (by decide) (all_eq_true.mp rfl))
  rw [Numeral.text, hten] at hread
  exact absurd hread (by decide +kernel)

end Tdb.Sql
