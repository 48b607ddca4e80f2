import TransactionDB.Sql.Quoting

/-!
# TransactionDB — hex and base64

`hex`, `unhex`, `base64_encode` and `base64_decode` of `src/ext/tdb_crypto.c`. The base64 decoder takes one
sextet after another into a 32-bit accumulator that it never clears, and gives a byte whenever eight bits
are there; between two groups of the encoded text no bits are pending, whatever the accumulator holds
(`base64Loop_text`).
-/

namespace Tdb.Sql

/-- `arg_bytes`. -/
def argBytes (lib : TypeLib) : Value → Bytes
  | .blob b => b
  | v => (v.asText lib).getD []

/-- `fn_hex`. -/
def fnHex (lib : TypeLib) (v : Value) : Value := .text (hexText (argBytes lib v))

/-- `fn_unhex`. -/
def fnUnhex (lib : TypeLib) (v : Value) : Except String Value :=
  match v.asText lib with
  | none => .ok .null
  | some s =>
    if s.length % 2 ≠ 0 then .error "unhex: odd-length string"
    else match decodeHex s with
      | none => .error "unhex: invalid hex digit"
      | some b => .ok (.blob b)

/-! ## Base64 -/

/-- `k_b64`. -/
def base64Char (n : Nat) : UInt8 :=
  if n < 26 then UInt8.ofNat (65 + n) else if n < 52 then UInt8.ofNat (71 + n)
  else if n < 62 then UInt8.ofNat (n - 4) else if n = 62 then chr '+' else chr '/'

/-- `b64val`. -/
def b64val (c : UInt8) : Option Nat :=
  if chr 'A' ≤ c ∧ c ≤ chr 'Z' then some (c.toNat - 65)
  else if chr 'a' ≤ c ∧ c ≤ chr 'z' then some (c.toNat - 97 + 26)
  else if isDigit c then some (c.toNat - 48 + 52)
  else if c = chr '+' then some 62
  else if c = chr '/' then some 63
  else none

/-- The sextet of `v` that begins at bit `shift`. -/
def sextet (v shift : Nat) : UInt8 := base64Char (v / 2 ^ shift % 64)

/-- The text `fn_base64_encode` writes. -/
def base64Text : Bytes → Bytes
  | a :: b :: c :: rest =>
    let v := a.toNat * 2 ^ 16 + b.toNat * 2 ^ 8 + c.toNat
    sextet v 18 :: sextet v 12 :: sextet v 6 :: sextet v 0 :: base64Text rest
  | [a, b] =>
    let v := a.toNat * 2 ^ 16 + b.toNat * 2 ^ 8
    [sextet v 18, sextet v 12, sextet v 6, chr '=']
  | [a] => [sextet (a.toNat * 2 ^ 16) 18, sextet (a.toNat * 2 ^ 16) 12, chr '=', chr '=']
  | [] => []

/-- `fn_base64_encode`. -/
def fnBase64Encode (lib : TypeLib) (v : Value) : Value := .text (base64Text (argBytes lib v))

def isBlank (c : UInt8) : Bool := c = newline ∨ c = 13 ∨ c = chr ' '

/-- The loop of `fn_base64_decode`; `none` at a character outside the alphabet. -/
def base64Loop (v bits : Nat) : Bytes → Option Bytes
  | [] => some []
  | c :: s =>
    if c = chr '=' ∨ isBlank c then base64Loop v bits s
    else match b64val c with
      | none => none
      | some d =>
        let v := (v * 64 + d) % 2 ^ 32
        if 8 ≤ bits + 6 then (base64Loop v (bits - 2) s).map (UInt8.ofNat (v / 2 ^ (bits - 2) % 256) :: ·)
        else base64Loop v (bits + 6) s

/-- `fn_base64_decode`. -/
def fnBase64Decode (lib : TypeLib) (v : Value) : Except String Value :=
  match v.asText lib with
  | none => .ok .null
  | some s => match base64Loop 0 0 s with
    | none => .error "base64: invalid character"
    | some b => .ok (.blob b)

theorem base64Char_facts : ∀ n < 64, base64Char n ≠ 0 ∧ ¬(base64Char n = chr '=' ∨ isBlank (base64Char n) = true) ∧
    b64val (base64Char n) = some n := by
  decide

theorem base64Loop_sextet (v bits w shift : Nat) (s : Bytes) :
    base64Loop v bits (sextet w shift :: s) =
      let v' := (v * 64 + w / 2 ^ shift % 64) % 2 ^ 32
      if 8 ≤ bits + 6 then (base64Loop v' (bits - 2) s).map (UInt8.ofNat (v' / 2 ^ (bits - 2) % 256) :: ·)
      else base64Loop v' (bits + 6) s := by
  obtain ⟨-, hskip, hval⟩ := base64Char_facts (w / 2 ^ shift % 64) (Nat.mod_lt _ (by decide))
  rw [sextet, base64Loop, if_neg hskip, hval]

theorem base64Loop_pad (v bits : Nat) (s : Bytes) : base64Loop v bits (chr '=' :: s) = base64Loop v bits s := rfl

/-- The encoded text is read back from any accumulator without pending bits. -/
theorem base64Loop_text (x : Bytes) (v : Nat) : base64Loop v 0 (base64Text x) = some x := by
  have hbyte : ∀ {a : UInt8} {n : Nat}, n = a.toNat → UInt8.ofNat n = a := fun h => h ▸ UInt8.ofNat_toNat
  induction x using base64Text.induct generalizing v with
  | case1 a b c rest ih =>
    have ha := a.toNat_lt
    have hb := b.toNat_lt
    have hc := c.toNat_lt
    simp only [base64Text, base64Loop_sextet, Nat.reduceAdd, Nat.reduceLeDiff, if_true, if_false, Nat.reduceSub, ih,
      Option.map_some, Option.some.injEq, List.cons.injEq, and_true]
    exact ⟨hbyte (by omega), hbyte (by omega), hbyte (by omega)⟩
  | case2 a b =>
    have ha := a.toNat_lt
    have hb := b.toNat_lt
    simp only [base64Text, base64Loop_sextet, Nat.reduceAdd, Nat.reduceLeDiff, if_true, if_false, Nat.reduceSub,
      base64Loop_pad, base64Loop.eq_1, Option.map_some, Option.some.injEq, List.cons.injEq, and_true]
    exact ⟨hbyte (by omega), hbyte (by omega)⟩
  | case3 a =>
    have ha := a.toNat_lt
    simp only [base64Text, base64Loop_sextet, Nat.reduceAdd, Nat.reduceLeDiff, if_true, if_false, Nat.reduceSub,
      base64Loop_pad, base64Loop.eq_1, Option.map_some, Option.some.injEq, List.cons.injEq, and_true]
    exact hbyte (by omega)
  | case4 => rfl

theorem base64Text_ne_zero (x : Bytes) : ∀ c ∈ base64Text x, c ≠ 0 := by
  have hsextet : ∀ w shift, sextet w shift ≠ 0 := fun w shift => (base64Char_facts _ (Nat.mod_lt _ (by decide))).1
  have hpad : chr '=' ≠ 0 := by decide
  induction x using base64Text.induct with
  | case1 a b c rest ih => simpa [base64Text, hsextet] using ih
  | case2 a b | case3 a => simp [base64Text, hsextet, hpad]
  | case4 => simp [base64Text]

theorem base64Loop_blanks (s : Bytes) (v bits : Nat) :
    base64Loop v bits (s.filter fun c => !isBlank c) = base64Loop v bits s := by
  induction s generalizing v bits with
  | nil => rfl
  | cons c s ih =>
    by_cases hc : isBlank c = true
    · rw [List.filter_cons_of_neg (by simpa using hc), ih, base64Loop, if_pos (Or.inr hc)]
    · rw [List.filter_cons_of_pos (by simpa using hc), base64Loop, base64Loop]
      simp only [ih]

theorem cstr_blanks (s : Bytes) : cstr (s.filter fun c => !isBlank c) = (cstr s).filter fun c => !isBlank c := by
  have hzero : isBlank 0 = false := rfl
  induction s with
  | nil => rfl
  | cons c s ih =>
    simp only [cstr, ne_eq, decide_not] at ih ⊢
    by_cases h0 : c = 0
    · simp [h0, hzero]
    · cases hc : isBlank c <;> simp [hc, h0, ih]

/-- Both encodings are read back, and blanks in a base64 text do not matter. -/
theorem encodings_round_trip (lib : TypeLib) (x : Bytes) :
    fnBase64Decode lib (fnBase64Encode lib (.blob x)) = .ok (.blob x) ∧
      fnUnhex lib (fnHex lib (.blob x)) = .ok (.blob x) ∧
      ∀ s, fnBase64Decode lib (.text (s.filter fun c => !isBlank c)) = fnBase64Decode lib (.text s) := by
  refine ⟨?_, ?_, fun s => ?_⟩
  · have htext : (fnBase64Encode lib (.blob x)).asText lib = some (base64Text x) :=
      congrArg some (cstr_eq (base64Text_ne_zero x))
    rw [fnBase64Decode, htext]
    simp only [base64Loop_text]
  · have hnul : ∀ c ∈ hexText x, c ≠ 0 := fun c hc => ne_of_mem_of_not_mem hc (not_mem_hexText x rfl)
    have htext : (fnHex lib (.blob x)).asText lib = some (hexText x) := congrArg some (cstr_eq hnul)
    rw [fnUnhex, htext]
    simp only [length_hexText, Nat.mul_mod_left, ne_eq, not_true_eq_false, if_false, decodeHex_hexText]
  · simp only [fnBase64Decode, Value.asText, scalarText, cstr_blanks, base64Loop_blanks]

end Tdb.Sql
