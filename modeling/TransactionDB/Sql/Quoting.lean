import TransactionDB.Sql.Literals

/-!
# TransactionDB — quoting and reading back

`quote_value` of `src/sql/tdb_exec_funcs.inc` against the literals of SQL text. NULL, texts without a nul
byte, blobs and integers are read back, but for the smallest integer: its digits behind the sign are too
large for a literal (`Quoted.Faithful` of `.int`).

A text in dollar quotes is given to `decode_string` like one in single quotes, so it loses one of two quotes
in a row. Its end is the first place where the closing mark stands, which may begin before the body ends
(`quoting_iff`).
-/

namespace Tdb.Sql

open Radix List

/-! ## Quoting -/

/-- A digit of `hexd`. -/
def hexDigit (n : Nat) : UInt8 := if n < 10 then UInt8.ofNat (48 + n) else UInt8.ofNat (87 + n)

def hexText (b : Bytes) : Bytes := b.flatMap fun c => [hexDigit (c.toNat / 16), hexDigit (c.toNat % 16)]

/-- A text with its quotes doubled. -/
def doubled (b : Bytes) : Bytes := b.flatMap fun c => if c = quote then [c, c] else [c]

/-- `quote_value`. -/
def quoteValue (lib : TypeLib) : Value → Bytes
  | .null => [78, 85, 76, 76]
  | .int i => intText i
  | .real bits => lib.realText bits
  | .blob b => chr 'X' :: quote :: hexText b ++ [quote]
  | .text b | .composite b => quote :: doubled b ++ [quote]

/-! ## Texts -/

theorem decodeString_cons {c : UInt8} (hc : c ≠ quote) (s : Bytes) : decodeString (c :: s) = c :: decodeString s := by
  cases s with
  | nil => rfl
  | cons c' s => simp [decodeString, hc]

theorem decodeString_doubled (b : Bytes) : decodeString (doubled b) = b := by
  induction b with
  | nil => rfl
  | cons c b ih =>
    by_cases hc : c = quote
    · subst hc
      simpa [doubled, decodeString] using ih
    · have hcons : doubled (c :: b) = c :: doubled b := by simp [doubled, hc]
      rw [hcons, decodeString_cons hc, ih]

theorem quotedLen_cons {c q : UInt8} (hc : c ≠ q) (s : Bytes) : quotedLen q (c :: s) = 1 + quotedLen q s := by
  rw [quotedLen.eq_def]
  simp [hc]

theorem quotedLen_doubled (b : Bytes) : quotedLen quote (doubled b ++ [quote]) = (doubled b).length := by
  induction b with
  | nil => rfl
  | cons c b ih =>
    by_cases hc : c = quote
    · have hcons : doubled (c :: b) = quote :: quote :: doubled b := by simp [doubled, hc]
      rw [hcons, cons_append, cons_append, quotedLen]
      simp only [if_true, ih, length_cons]
      omega
    · have hcons : doubled (c :: b) = c :: doubled b := by simp [doubled, hc]
      rw [hcons, cons_append, quotedLen_cons hc, ih, length_cons, Nat.add_comm]

theorem sqlValue_text (L : EvalLib) (c : Ectx) {b : Bytes} (hb : ∀ c ∈ b, c ≠ 0) :
    sqlValue L c (quote :: doubled b ++ [quote]) = some (.text b) := by
  have hlex : lexNext (quote :: doubled b ++ [quote]) =
      (⟨.string, doubled b ++ [quote], (doubled b).length⟩, []) := by
    have hskip := skipTrivia_start (c := quote) (by decide) (by decide) (by decide) (doubled b ++ [quote])
    rw [cons_append, lexNext, hskip]
    simp [scanToken, scanQuoted, quotedLen_doubled, show isIdStart quote = false by decide,
      show isDigit quote = false by decide, show quote ≠ chr 'x' by decide, show quote ≠ chr 'X' by decide,
      show quote ≠ chr '.' by decide]
  refine sqlValue_one (.lit (.text b)) (by simp) hlex (by simp) ?_ rfl
  simp [exprTok, Token.text, decodeString_doubled, cstr_eq hb]

/-! ## Blobs -/

theorem hexDigit_facts (c : UInt8) : (isXDigit (hexDigit (c.toNat / 16)) = true ∧
    isXDigit (hexDigit (c.toNat % 16)) = true) ∧
    UInt8.ofNat (hexVal (hexDigit (c.toNat / 16)) * 16 + hexVal (hexDigit (c.toNat % 16))) = c :=
  forall_byte (p := fun c => (isXDigit (hexDigit (c.toNat / 16)) = true ∧
    isXDigit (hexDigit (c.toNat % 16)) = true) ∧
    UInt8.ofNat (hexVal (hexDigit (c.toNat / 16)) * 16 + hexVal (hexDigit (c.toNat % 16))) = c) (by decide +kernel) c

theorem length_hexText (b : Bytes) : (hexText b).length = b.length * 2 := by simp [hexText]

/-- The text of a blob consists of hexadecimal digits, so what is none of them is not in it. -/
theorem not_mem_hexText (b : Bytes) {c : UInt8} (hc : isXDigit c = false) : c ∉ hexText b := by
  intro h
  obtain ⟨x, -, hx⟩ := mem_flatMap.mp h
  obtain ⟨⟨h1, h2⟩, -⟩ := hexDigit_facts x
  rcases mem_pair.mp hx with rfl | rfl
  · rw [h1] at hc
    cases hc
  · rw [h2] at hc
    cases hc

theorem decodeHex_hexText (b : Bytes) : decodeHex (hexText b) = some b := by
  induction b with
  | nil => rfl
  | cons c b ih =>
    obtain ⟨hx, hc⟩ := hexDigit_facts c
    simp only [hexText, flatMap_cons, cons_append, nil_append] at ih ⊢
    rw [decodeHex, if_pos hx, ih, hc]
    rfl

theorem blobTok_hexText (b : Bytes) : blobTok (hexText b) = .lit (.blob b) := by
  rw [blobTok, length_hexText, if_neg (by omega), decodeHex_hexText]

theorem sqlValue_blob (L : EvalLib) (c : Ectx) (b : Bytes) :
    sqlValue L c (chr 'X' :: quote :: hexText b ++ [quote]) = some (.blob b) := by
  have htake : (hexText b ++ [quote]).takeWhile (fun c => c ≠ quote) = hexText b := by
    rw [takeWhile_append_of_pos]
    · simp
    · intro c hc
      simpa using ne_of_mem_of_not_mem hc (not_mem_hexText b rfl)
  have hlex : lexNext (chr 'X' :: quote :: hexText b ++ [quote]) =
      (⟨.blob, hexText b ++ [quote], (hexText b).length⟩, []) := by
    have hskip : skipTrivia .blank (chr 'X' :: quote :: (hexText b ++ [quote])) =
        chr 'X' :: quote :: (hexText b ++ [quote]) := rfl
    rw [cons_append, cons_append, lexNext, hskip]
    simp only [ne_eq, decide_not] at htake
    simp [scanToken, htake]
  refine sqlValue_one (.lit (.blob b)) (by simp) hlex (by simp) ?_ rfl
  simp [exprTok, Token.text, blobTok_hexText]

/-! ## Integers -/

/-- What the loop of `toList` adds are the bytes from its position on. -/
theorem toList_loop (bs : ByteArray) (n i : Nat) (hn : bs.data.toList.length - i = n) (r : List UInt8) :
    ByteArray.toList.loop bs i r = r.reverse ++ bs.data.toList.drop i := by
  have hsize : bs.data.toList.length = bs.size := rfl
  induction n generalizing i r with
  | zero =>
    rw [ByteArray.toList.loop.eq_def, if_neg (by omega), drop_eq_nil_of_le (by omega), append_nil]
  | succ n ih =>
    have hi : i < bs.data.toList.length := by omega
    have hget : bs.get! i = bs.data.toList[i] := by
      have hdata : bs.get! i = bs.data[i]! := rfl
      rw [hdata, getElem!_pos bs.data i hi, Array.getElem_toList]
    rw [ByteArray.toList.loop.eq_def, if_pos (by omega), ih (i + 1) (by omega), hget, drop_eq_getElem_cons hi]
    simp

theorem toList_eq_data (bs : ByteArray) : bs.toList = bs.data.toList := by
  rw [ByteArray.toList, toList_loop bs _ 0 rfl, drop_zero]
  rfl

/-- A number printed in decimal. -/
def natText (n : Nat) : Bytes := (toString n).toUTF8.toList

theorem natText_eq (n : Nat) : natText n = (Nat.toDigits 10 n).flatMap String.utf8EncodeChar := by
  have hstr : toString n = String.ofList (Nat.toDigits 10 n) := Nat.toString_eq_ofList_toDigits
  rw [natText, toList_eq_data, hstr]
  change (String.ofList (Nat.toDigits 10 n)).toByteArray.data.toList = _
  rw [String.toByteArray_ofList, List.utf8Encode, toList_data_toByteArray]

theorem utf8_digit (n : Nat) (hn : n < 10) : String.utf8EncodeChar (Nat.digitChar n) = [UInt8.ofNat (48 + n)] := by
  interval_cases n <;> rfl

theorem natText_of_lt {n : Nat} (hn : n < 10) : natText n = [UInt8.ofNat (48 + n)] := by
  rw [natText_eq, Nat.toDigits_of_lt_base hn, flatMap_singleton, utf8_digit n hn]

theorem natText_of_le {n : Nat} (hn : 10 ≤ n) : natText n = natText (n / 10) ++ [UInt8.ofNat (48 + n % 10)] := by
  rw [natText_eq, natText_eq, Nat.toDigits_of_base_le (by decide) hn, flatMap_append, flatMap_singleton,
    utf8_digit _ (Nat.mod_lt _ (by decide))]

theorem digit_facts (n : Nat) (hn : n < 10) : isDigit (UInt8.ofNat (48 + n)) = true ∧
    hexVal (UInt8.ofNat (48 + n)) = n ∧ (UInt8.ofNat (48 + n) = chr '0' → n = 0) := by
  revert n
  decide

/-- Digits that denote a number, without a zero in front. -/
structure Decimal (n : Nat) (d : Bytes) : Prop where
  ne : d ≠ []
  digits : ∀ c ∈ d, isDigit c = true
  value : value 10 hexVal d = n
  head : n ≠ 0 → d.head? ≠ some (chr '0')
  short : ∀ k, n < 10 ^ (k + 1) → d.length ≤ k + 1

theorem decimal_natText (n : Nat) : Decimal n (natText n) := by
  induction n using Nat.strongRecOn with
  | ind n ih =>
    rcases Nat.lt_or_ge n 10 with hn | hn
    · obtain ⟨hdigit, hval, hzero⟩ := digit_facts n hn
      rw [natText_of_lt hn]
      exact
        { ne := cons_ne_nil _ _
          digits := by simpa using hdigit
          value := by simpa [Radix.value] using hval
          head := by simpa using mt hzero
          short := by simp }
    · obtain ⟨hdigit, hval, -⟩ := digit_facts (n % 10) (Nat.mod_lt _ (by decide))
      have hd := ih (n / 10) (by omega)
      rw [natText_of_le hn]
      exact
        { ne := by simp
          digits := fun c hc => by
            rcases mem_append.mp hc with hc | hc
            · exact hd.digits c hc
            · rw [mem_singleton.mp hc]
              exact hdigit
          value := by
            rw [value_concat, hd.value, hval]
            omega
          head := fun _ => by
            rw [head?_append_of_ne_nil _ hd.ne]
            exact hd.head (by omega)
          short := fun k hk => by
            cases k with
            | zero => omega
            | succ k =>
              have hlen := hd.short k (by omega)
              simpa using hlen }

theorem strtollAuto_natText {n : Nat} (hn : n ≤ 2 ^ 63) :
    strtollAuto ((natText n).take 79) = Int64.ofNat (min n (2 ^ 63 - 1)) := by
  have hd := decimal_natText n
  have hlen := hd.short 18 (by omega)
  rw [take_of_length_le (by omega)]
  by_cases hzero : n = 0
  · subst hzero
    decide +kernel
  · rw [strtollAuto_dec hd.digits (hd.head hzero), hd.value]

theorem intText_ofNat {i : Int64} {n : Nat} (hi : i.toInt = n) : intText i = natText n := by
  rw [intText, hi]
  rfl

theorem intText_negSucc {i : Int64} {m : Nat} (hi : i.toInt = Int.negSucc m) :
    intText i = chr '-' :: natText (m + 1) := by
  have hstr : toString (Int.negSucc m) = "-" ++ toString (m + 1) := rfl
  rw [intText, hi, hstr, natText, toList_eq_data, toList_eq_data]
  change ("-" ++ toString (m + 1)).toByteArray.data.toList = _
  rw [String.toByteArray_append, ByteArray.data_append, Array.toList_append]
  rfl

theorem lexNext_minus {n : Nat} :
    lexNext (chr '-' :: natText n) = (⟨.minus, chr '-' :: natText n, 1⟩, natText n) := by
  have hd := decimal_natText n
  obtain ⟨c, r, hr⟩ := exists_cons_of_ne_nil hd.ne
  obtain ⟨⟨-, hminus, -⟩, -⟩ := isDigit_facts c (hd.digits c (by simp [hr]))
  have hskip : skipTrivia .blank (chr '-' :: c :: r) = chr '-' :: c :: r := by
    rw [skipTrivia, if_neg (by decide), if_neg (fun h => hminus h.2), if_neg (fun h => absurd h.1 (by decide))]
  rw [hr, lexNext, hskip]
  rfl

/-- What is read of a printed integer: its digits, as far as they fit, with its sign. -/
theorem sqlValue_int (L : EvalLib) (c : Ectx) (i : Int64) :
    sqlValue L c (intText i) = some (.int i) ↔ i ≠ Int64.minValue := by
  have hlo := i.le_toInt
  have hhi := i.toInt_lt
  cases hi : i.toInt with
  | ofNat n =>
    rw [hi, Int.ofNat_eq_natCast] at hhi
    have hd := decimal_natText n
    have hread := sqlValue_numeral L c (.dec (natText n) hd.ne hd.digits)
    rw [Numeral.text, strtollAuto_natText (by omega), Nat.min_eq_left (by omega), ← Int64.ofInt_eq_ofNat] at hread
    rw [intText_ofNat hi, hread, ← Int.ofNat_eq_natCast, ← hi, Int64.ofInt_toInt]
    have hmin : i ≠ Int64.minValue := by
      rintro rfl
      cases hi
    simpa using hmin
  | negSucc m =>
    have hd := decimal_natText (m + 1)
    have hle : m + 1 ≤ 2 ^ 63 := by omega
    have hread : sqlValue L c (intText i) = some (.int (-Int64.ofNat (min (m + 1) (2 ^ 63 - 1)))) := by
      have hlen := length_pos_of_ne_nil hd.ne
      rw [intText_negSucc hi, sqlValue_neg (by simp; omega) lexNext_minus rfl (lexNext_dec hd.ne hd.digits)
        (by simp) (v := .int (strtollAuto ((natText (m + 1)).take 79))) (by simp [exprTok, parseNumber, Token.text]),
        strtollAuto_natText hle]
      rfl
    rw [hi, Int.negSucc_eq] at hlo
    have hneg : (-Int64.ofNat (min (m + 1) (2 ^ 63 - 1))).toInt = -(min (m + 1) (2 ^ 63 - 1) : Nat) := by
      rw [← Int64.ofInt_eq_ofNat, ← Int64.ofInt_neg, Int64.toInt_ofInt_of_le (by omega) (by omega)]
    have hmin : Int64.minValue.toInt = -2 ^ 63 := by decide
    rw [hread, Option.some.injEq, Value.int.injEq, Ne, ← Int64.toInt_inj, ← Int64.toInt_inj, hneg, hi, hmin,
      Int.negSucc_eq]
    omega

/-! ## Dollar quotes -/

/-- The mark on both sides of a text in dollar quotes. -/
def dollarMark (tag : Bytes) : Bytes := chr '$' :: tag ++ [chr '$']

/-- The bytes of a tag. -/
def IsTag (tag : Bytes) : Prop := ∀ c ∈ tag, isIdChar c = true ∧ c ≠ chr '$'

section Dollar

variable {tag : Bytes}

/-- A mark that begins before the last one ends in it: they share one dollar. -/
theorem mark_overlap (htag : IsTag tag) {x : Bytes} (hx : x ≠ []) (h : dollarMark tag <+: x ++ dollarMark tag) :
    dollarMark tag <+: x ∨ x = chr '$' :: tag := by
  rcases Nat.lt_or_ge x.length (dollarMark tag).length with hlt | hle
  · right
    obtain ⟨r, hr⟩ := List.prefix_of_prefix_length_le (List.prefix_append x (dollarMark tag)) h hlt.le
    obtain ⟨c, x, rfl⟩ := exists_cons_of_ne_nil hx
    obtain ⟨d, r, rfl⟩ : ∃ d r', r = d :: r' := by
      cases r with
      | nil => simp [← hr] at hlt
      | cons d r => exact ⟨d, r, rfl⟩
    -- The byte behind `x` is the first one of the last mark.
    have hd : d = chr '$' := by
      have hpre : c :: x ++ d :: r <+: c :: x ++ dollarMark tag := by
        rw [hr]
        exact h
      obtain ⟨s, hs⟩ := (List.prefix_append_right_inj _).mp hpre
      exact (List.cons.inj hs).1
    obtain ⟨rfl, htail⟩ := List.cons.inj hr
    have htail : x ++ d :: r = tag ++ [chr '$'] := htail
    obtain ⟨s, rfl⟩ : x <+: tag := by
      refine List.prefix_of_prefix_length_le ⟨d :: r, htail⟩ (List.prefix_append tag [chr '$']) ?_
      simp [dollarMark] at hlt
      omega
    cases s with
    | nil => rw [append_nil]
    | cons d' s =>
      rw [append_assoc, append_cancel_left_eq] at htail
      exact absurd ((List.cons.inj htail).1.symm.trans hd) (htag d' (by simp)).2
  · exact Or.inl (List.prefix_of_prefix_length_le h (List.prefix_append x _) hle)

theorem untilMark_nil_append (mark : Bytes) (hne : mark ≠ []) : untilMark mark mark = 0 := by
  obtain ⟨c, s, rfl⟩ := exists_cons_of_ne_nil hne
  simp [untilMark]

/-- Where the text ends: at the last mark, or one dollar before it. -/
theorem untilMark_body (htag : IsTag tag) {body : Bytes} (hfree : ¬ dollarMark tag <:+: body) :
    untilMark (dollarMark tag) (body ++ dollarMark tag) = body.length ∧ ¬ chr '$' :: tag <:+ body ∨
    ∃ pre, body = pre ++ chr '$' :: tag ∧ untilMark (dollarMark tag) (body ++ dollarMark tag) = pre.length := by
  induction body with
  | nil => exact Or.inl ⟨untilMark_nil_append _ (by simp [dollarMark]), by simp⟩
  | cons c body ih =>
    rw [List.infix_cons_iff, not_or] at hfree
    by_cases hpre : dollarMark tag <+: c :: body ++ dollarMark tag
    · have hx := (mark_overlap htag (cons_ne_nil _ _) hpre).resolve_left hfree.1
      refine Or.inr ⟨[], hx, ?_⟩
      have htake := (List.prefix_iff_eq_take.mp hpre).symm
      rw [cons_append] at htake ⊢
      rw [untilMark, if_pos htake]
      rfl
    · have hstep : untilMark (dollarMark tag) (c :: body ++ dollarMark tag) =
          1 + untilMark (dollarMark tag) (body ++ dollarMark tag) := by
        rw [cons_append, untilMark, if_neg]
        exact fun h => hpre (List.prefix_iff_eq_take.mpr h.symm)
      rw [hstep, length_cons]
      rcases ih hfree.2 with ⟨hlen, hsuf⟩ | ⟨pre, hbody, hlen⟩
      · refine Or.inl ⟨by omega, fun h => ?_⟩
        rcases List.suffix_cons_iff.mp h with heq | h
        · refine hpre ⟨tag ++ [chr '$'], ?_⟩
          simp [← heq, dollarMark]
        · exact hsuf h
      · refine Or.inr ⟨c :: pre, by rw [hbody, cons_append], ?_⟩
        rw [hlen, length_cons, Nat.add_comm]

theorem lexNext_dollar (htag : IsTag tag) (body : Bytes) :
    lexNext (dollarMark tag ++ body) =
      (⟨.string, body, untilMark (dollarMark tag) body⟩, body.drop (untilMark (dollarMark tag) body + (tag.length + 2))) := by
  have htake : (tag ++ chr '$' :: body).takeWhile (fun c => isIdChar c && c ≠ chr '$') = tag := by
    rw [takeWhile_append_of_pos fun c hc => by simpa using htag c hc]
    simp
  have hz : dollarMark tag ++ body = chr '$' :: (tag ++ chr '$' :: body) := by simp [dollarMark]
  have hskip := skipTrivia_start (c := chr '$') (by decide) (by decide) (by decide) (tag ++ chr '$' :: body)
  have hscan : scanDollar (chr '$' :: (tag ++ chr '$' :: body)) =
      (⟨.string, body, untilMark (dollarMark tag) body⟩,
        body.drop (untilMark (dollarMark tag) body + (tag.length + 2))) := by
    have hdrop : (chr '$' :: (tag ++ chr '$' :: body)).drop (1 + tag.length) = chr '$' :: body := by
      rw [Nat.add_comm, drop_succ_cons, drop_left]
    simp only [scanDollar, tail_cons, htake, hdrop]
    simp [dollarMark]
  rw [hz, lexNext, hskip, ← hscan]
  rfl

end Dollar

/-! ### What stands behind a text that ended early -/

/-- Behind a literal, one more operand is refused. -/
theorem sqlValue_trailing {L : EvalLib} {c : Ectx} {text rest : Bytes} {t : Token} {v : Value}
    (hlex : lexNext text = (t, rest)) (heof : t.kind ≠ .eof) (htok : exprTok L.types t = some (.lit v))
    (heof' : (lexNext rest).1.kind ≠ .eof)
    (hnext : ∀ tok, exprTok L.types (lexNext rest).1 = some tok → (∃ v, tok = .lit v) ∨ ∃ name, tok = .id name) :
    sqlValue L c text = none := by
  have htoks : ∀ n toks, exprToks L.types n text = some toks →
      ∃ tok more, toks = .lit v :: tok :: more ∧ ((∃ v, tok = .lit v) ∨ ∃ name, tok = .id name) := by
    intro n toks h
    rcases n with _ | _ | n
    · cases h
    · simp [exprToks, hlex, heof] at h
    · rw [exprToks, hlex, if_neg heof, htok, Option.bind_some, exprToks, if_neg heof'] at h
      obtain ⟨toks', h', rfl⟩ := Option.map_eq_some_iff.mp h
      obtain ⟨tok, htok', h'⟩ := Option.bind_eq_some_iff.mp h'
      obtain ⟨more, -, rfl⟩ := Option.map_eq_some_iff.mp h'
      exact ⟨tok, more, rfl, hnext tok htok'⟩
  have hparse : ∀ tok more, ((∃ v, tok = .lit v) ∨ ∃ name, tok = .id name) →
      tdbParseExpression (.lit v :: tok :: more) = .err ⟨some tok, "trailing tokens in expression"⟩ := by
    intro tok more htok
    have hsteps : enoughSteps (.lit v :: tok :: more) = 4 * more.length + 8 + 3 + 1 := by simp [enoughSteps]; omega
    rw [tdbParseExpression, parseTree, hsteps]
    rcases htok with ⟨v', rfl⟩ | ⟨name, rfl⟩ <;>
      simp [parseExpr, parseUnary, parsePrimary, exprLoop, nextOp, takeNot, binprec, Fueled.Res.bind]
  rw [sqlValue, sqlExpr]
  cases hall : exprToks L.types (text.length + 1) text with
  | none => rfl
  | some toks =>
    obtain ⟨tok, more, rfl, htok⟩ := htoks _ _ hall
    simp [hparse tok more htok]

/-- A word with a dollar in it is no keyword. -/
theorem keywordLookup_dollar {w : Bytes} (hw : chr '$' ∈ w) : keywordLookup w = .id := by
  have hfree : ∀ k ∈ keywords, chr '$' ∉ k.1.toUTF8.toList.map lowerAscii := by decide +kernel
  have hnone : keywords.find? (fun k => sameName w k.1.toUTF8.toList) = none := by
    refine find?_eq_none.mpr fun k hk hsame => hfree k hk ?_
    rw [← decide_eq_true_iff.mp hsame]
    exact mem_map.mpr ⟨chr '$', hw, by decide⟩
  rw [keywordLookup, hnone]

theorem isIdChar_cases (c : UInt8) : isIdChar c = true → c ≠ chr '$' → isIdStart c = true ∨ isDigit c = true :=
  forall_byte (p := fun c => isIdChar c = true → c ≠ chr '$' → isIdStart c = true ∨ isDigit c = true)
    (by decide +kernel) c

/-- The rest of the mark is a parameter, an identifier or a number. -/
theorem lexNext_tag (lib : TypeLib) {tag : Bytes} (htag : IsTag tag) :
    (lexNext (tag ++ [chr '$'])).1.kind ≠ .eof ∧ ∀ tok, exprTok lib (lexNext (tag ++ [chr '$'])).1 = some tok →
      (∃ v, tok = .lit v) ∨ ∃ name, tok = .id name := by
  cases tag with
  | nil =>
    have hkind : (lexNext [chr '$']).1.kind = .param := by decide
    rw [nil_append]
    refine ⟨by rw [hkind]; decide, fun tok h => ?_⟩
    rw [exprTok, hkind] at h
    cases h
  | cons a tag =>
    obtain ⟨hchar, hne⟩ := htag a (by simp)
    rcases isIdChar_cases a hchar hne with ha | ha
    · have hword : IsWord (a :: tag ++ [chr '$']) := by
        refine ⟨⟨a, tag ++ [chr '$'], rfl, ha⟩, fun c hc => ?_⟩
        rcases mem_append.mp hc with hc | hc
        · exact (htag c hc).1
        · rw [mem_singleton.mp hc]
          decide
      have hlex : lexNext ([] ++ (a :: tag ++ [chr '$'] ++ [])) = _ := lexNext_word (by simp) hword (by simp)
      rw [nil_append, append_nil, keywordLookup_dollar (by simp)] at hlex
      rw [hlex]
      refine ⟨by simp, fun tok h => Or.inr ⟨_, (Option.some.inj h).symm⟩⟩
    · rw [cons_append, lexNext_digit ha]
      have hkind : (scanNumber (a :: (tag ++ [chr '$']))).1.kind = .integer ∨
          (scanNumber (a :: (tag ++ [chr '$']))).1.kind = .float := by
        simp only [scanNumber]
        split <;> simp
      refine ⟨by rcases hkind with h | h <;> rw [h] <;> decide, fun tok h => Or.inl ?_⟩
      rcases hkind with hkind | hkind <;> rw [exprTok, hkind] at h <;> exact ⟨_, (Option.some.inj h).symm⟩

theorem decodeString_length (b : Bytes) : (decodeString b).length ≤ b.length := by
  fun_induction decodeString b with
  | case1 | case2 c => exact Nat.le_refl _
  | case3 c c' s h ih => exact Nat.succ_le_succ (ih.trans (Nat.le_succ _))
  | case4 c c' s h ih => exact Nat.succ_le_succ ih

/-- Only doubled quotes are changed. -/
theorem decodeString_eq_self_iff (b : Bytes) : decodeString b = b ↔ ¬ [quote, quote] <:+: b := by
  fun_induction decodeString b with
  | case1 => simp
  | case2 c => simp [List.infix_cons_iff]
  | case3 c c' s h ih =>
    have hlen := decodeString_length s
    refine iff_of_false (fun heq => ?_) (not_not.mpr ⟨[], s, by simp [h.1, h.2]⟩)
    have heq := congrArg List.length heq
    simp at heq
    omega
  | case4 c c' s h ih =>
    have hpre : ¬ [quote, quote] <+: c :: c' :: s := by
      simpa [eq_comm] using h
    rw [List.infix_cons_iff, not_or, ← ih]
    simp [hpre]

theorem mem_decodeString {b : Bytes} {c : UInt8} (hc : c ∈ decodeString b) : c ∈ b := by
  fun_induction decodeString b <;> simp_all <;> tauto

theorem sqlValue_dollar (L : EvalLib) (c : Ectx) {tag body : Bytes}
    (htag : IsTag tag) (hnul : ∀ c ∈ body, c ≠ 0)
    (hfree : ¬ dollarMark tag <:+: body) :
    sqlValue L c (dollarMark tag ++ (body ++ dollarMark tag)) = some (.text body) ↔
      ¬ chr '$' :: tag <:+ body ∧ ¬ [quote, quote] <:+: body := by
  have hlex := lexNext_dollar htag (body ++ dollarMark tag)
  rcases untilMark_body htag hfree with ⟨hlen, hsuf⟩ | ⟨pre, rfl, hlen⟩
  · have hdrop : (body ++ dollarMark tag).drop (body.length + (tag.length + 2)) = [] :=
      drop_eq_nil_of_le (by simp [dollarMark])
    rw [hlen, hdrop] at hlex
    have htok : exprTok L.types ⟨.string, body ++ dollarMark tag, body.length⟩ =
        some (.lit (.text (decodeString body))) := by
      simp [exprTok, Token.text, cstr_eq fun c hc => hnul c (mem_decodeString hc)]
    have hread := sqlValue_one (c := c) _ (by simp [dollarMark]) hlex (by simp) htok (e := .literal (.text (decodeString body))) rfl
    rw [hread, ← decodeString_eq_self_iff]
    simp [eval, hsuf]
  · have hdrop : (pre ++ chr '$' :: tag ++ dollarMark tag).drop (pre.length + (tag.length + 2)) = tag ++ [chr '$'] := by
      rw [append_assoc, ← drop_drop, drop_left]
      have hsplit : chr '$' :: tag ++ dollarMark tag = dollarMark tag ++ (tag ++ [chr '$']) := by simp [dollarMark]
      rw [hsplit, drop_left' (by simp [dollarMark])]
    rw [hlen, hdrop] at hlex
    obtain ⟨heof, hnext⟩ := lexNext_tag L.types htag
    rw [sqlValue_trailing hlex (by simp) rfl heof hnext]
    simp

/-! ## The round trip -/

theorem sqlValue_null (L : EvalLib) (c : Ectx) : sqlValue L c [78, 85, 76, 76] = some .null := by
  have hlex : lexNext [78, 85, 76, 76] = (⟨.kw .nullKw, [78, 85, 76, 76], 4⟩, []) := by decide +kernel
  exact sqlValue_one .null (by simp) hlex (by simp) rfl rfl

/-- What can be quoted: a value, by `quote`, and a text without the closing mark, in dollar quotes. -/
inductive Quoted where
  | null
  | int (i : Int64)
  | text (b : Bytes) (hnul : ∀ c ∈ b, c ≠ 0)
  | blob (b : Bytes)
  | dollar (tag body : Bytes) (htag : IsTag tag) (hnul : ∀ c ∈ body, c ≠ 0)
      (hfree : ¬ dollarMark tag <:+: body)

/-- What it denotes. -/
def Quoted.value : Quoted → Value
  | .null => .null
  | .int i => .int i
  | .text b _ | .dollar _ b .. => .text b
  | .blob b => .blob b

/-- The SQL text. -/
def Quoted.sql (lib : TypeLib) : Quoted → Bytes
  | .dollar tag body .. => dollarMark tag ++ (body ++ dollarMark tag)
  | q => quoteValue lib q.value

/-- The text is read as the value. -/
def Quoted.Faithful (L : EvalLib) (c : Ectx) (q : Quoted) : Prop := sqlValue L c (q.sql L.types) = some q.value

/-- What is read back: all but the smallest integer, and in dollar quotes a text that has no quotes in a row
and does not end in all of the closing mark but its last dollar. -/
def Quoted.Plain : Quoted → Prop
  | .int i => i ≠ Int64.minValue
  | .dollar tag body .. => ¬ chr '$' :: tag <:+ body ∧ ¬ [quote, quote] <:+: body
  | _ => True

/-- Literals are inverse to quoting just for what is plain. -/
theorem quoting_iff (L : EvalLib) (c : Ectx) (q : Quoted) : q.Faithful L c ↔ q.Plain := by
  cases q with
  | null => exact iff_of_true (sqlValue_null L c) trivial
  | int i => exact sqlValue_int L c i
  | text b hnul => exact iff_of_true (sqlValue_text L c hnul) trivial
  | blob b => exact iff_of_true (sqlValue_blob L c b) trivial
  | dollar tag body htag hnul hfree => exact sqlValue_dollar L c htag hnul hfree

/-- `-9223372036854775808` is read as `-9223372036854775807`. -/
theorem quoting_smallest : ¬ (Quoted.int Int64.minValue).Faithful bareEval bareCtx :=
  fun h => (sqlValue_int bareEval bareCtx Int64.minValue).mp h rfl

end Tdb.Sql
