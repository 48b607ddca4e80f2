import Mathlib.Data.List.TakeWhile
import TransactionDB.Sql.Lexer

/-!
# TransactionDB — the lexer tiles its input

`tdb_lex_next` reads a gap of blanks and comments, then a token: the opening mark of the token if it has
one, its text, and the closing mark. Whatever the text, these parts and what is left are the input in
order (`lexNext_tile`), and a call that is not at the end takes at least one byte. So the calls come to
the end of the text after at most as many tokens as it has bytes (`lexer_tiles`).

A mark is missing at the end of the text only: a quoted token that is not closed goes up to there.
-/

namespace Tdb.Sql

open List

/-! ## What lies between tokens -/

/-- Blanks and comments. A comment goes to the end of its line or to its closing mark, or to the end of
the text. -/
inductive Trivia : TriviaMode → Bytes → Prop where
  | nil (m : TriviaMode) : Trivia m []
  | space {c : UInt8} {t : Bytes} (hc : isSpace c = true) (h : Trivia .blank t) : Trivia .blank (c :: t)
  | line {t : Bytes} (h : Trivia .line t) : Trivia .blank (chr '-' :: chr '-' :: t)
  | block {t : Bytes} (h : Trivia .block t) : Trivia .blank (chr '/' :: chr '*' :: t)
  | inLine {c : UInt8} {t : Bytes} (hc : c ≠ newline) (h : Trivia .line t) : Trivia .line (c :: t)
  | endLine {t : Bytes} (h : Trivia .blank t) : Trivia .line (newline :: t)
  | inBlock {c : UInt8} {t : Bytes} (hc : ¬ (c = chr '*' ∧ t.head? = some (chr '/')))
      (h : Trivia .block t) : Trivia .block (c :: t)
  | endBlock {t : Bytes} (h : Trivia .blank t) : Trivia .block (chr '*' :: chr '/' :: t)

theorem skipTrivia_gap (m : TriviaMode) (z : Bytes) :
    ∃ gap, z = gap ++ skipTrivia m z ∧ Trivia m gap := by
  induction m, z using skipTrivia.induct with
  | case1 m => exact ⟨[], by simp [skipTrivia], .nil m⟩
  | case2 c hc => exact ⟨[c], by simp [skipTrivia, hc], .space hc (.nil _)⟩
  | case3 c hc => exact ⟨[], by simp [skipTrivia, hc], .nil _⟩
  | case4 c c' rest hc ih =>
    obtain ⟨gap, hgap, htrivia⟩ := ih
    exact ⟨c :: gap, by rw [skipTrivia, if_pos hc, cons_append, ← hgap], .space hc htrivia⟩
  | case5 c c' rest hc hline ih =>
    obtain ⟨gap, hgap, htrivia⟩ := ih
    obtain ⟨rfl, rfl⟩ := hline
    refine ⟨chr '-' :: chr '-' :: gap, ?_, .line htrivia⟩
    rw [skipTrivia, if_neg hc, if_pos ⟨rfl, rfl⟩, cons_append, cons_append, ← hgap]
  | case6 c c' rest hc hline hblock ih =>
    obtain ⟨gap, hgap, htrivia⟩ := ih
    obtain ⟨rfl, rfl⟩ := hblock
    refine ⟨chr '/' :: chr '*' :: gap, ?_, .block htrivia⟩
    rw [skipTrivia, if_neg hc, if_neg hline, if_pos ⟨rfl, rfl⟩, cons_append, cons_append, ← hgap]
  | case7 c c' rest hc hline hblock =>
    exact ⟨[], by rw [skipTrivia, if_neg hc, if_neg hline, if_neg hblock, nil_append], .nil _⟩
  | case8 rest ih =>
    obtain ⟨gap, hgap, htrivia⟩ := ih
    exact ⟨newline :: gap, by rw [skipTrivia, if_pos rfl, cons_append, ← hgap], .endLine htrivia⟩
  | case9 c rest hc ih =>
    obtain ⟨gap, hgap, htrivia⟩ := ih
    exact ⟨c :: gap, by rw [skipTrivia, if_neg hc, cons_append, ← hgap], .inLine hc htrivia⟩
  | case10 c => exact ⟨[c], by simp [skipTrivia], .inBlock (by simp) (.nil _)⟩
  | case11 c c' rest hend ih =>
    obtain ⟨gap, hgap, htrivia⟩ := ih
    obtain ⟨rfl, rfl⟩ := hend
    refine ⟨chr '*' :: chr '/' :: gap, ?_, .endBlock htrivia⟩
    rw [skipTrivia, if_pos ⟨rfl, rfl⟩, cons_append, cons_append, ← hgap]
  | case12 c c' rest hend ih =>
    obtain ⟨gap, hgap, htrivia⟩ := ih
    refine ⟨c :: gap, by rw [skipTrivia, if_neg hend, cons_append, ← hgap], .inBlock ?_ htrivia⟩
    rintro ⟨rfl, hhead⟩
    refine hend ⟨rfl, ?_⟩
    cases gap with
    | nil => cases hhead
    | cons g gap => exact (List.cons.inj hgap).1.trans (Option.some.inj hhead)

/-! ## Tokens and their marks -/

/-- The opening and the closing mark of a token. The opening quote of a blob is behind an `x`. -/
inductive Marks : TokenKind → Bytes → Bytes → Prop where
  | none (k : TokenKind) : Marks k [] []
  | string : Marks .string [quote] [quote]
  | doubleQuoted : Marks .id [doubleQuote] [doubleQuote]
  | backQuoted : Marks .id [backQuote] [backQuote]
  | bracketed : Marks .id [chr '['] [chr ']']
  | blob {x : UInt8} (hx : x = chr 'x' ∨ x = chr 'X') : Marks .blob [x, quote] [quote]
  | dollar {tag : Bytes} (htag : ∀ c ∈ tag, isIdChar c = true ∧ c ≠ chr '$') :
      Marks .string (chr '$' :: tag ++ [chr '$']) (chr '$' :: tag ++ [chr '$'])

/-- The input is the marks of the token around its text, and the rest; only at the end of the input the
closing mark may be missing. -/
structure Tile (z : Bytes) (t : Token) (rest : Bytes) : Prop where
  parts : ∃ opening closing behind, Marks t.kind opening closing ∧
    (behind = closing ∨ behind = [] ∧ rest = []) ∧ t.z = t.text ++ (behind ++ rest) ∧ z = opening ++ t.z
  progress : rest.length < z.length

theorem Tile.plain {z : Bytes} (k : TokenKind) {n : Nat} (hn : 0 < n) (hz : z ≠ []) :
    Tile z ⟨k, z, n⟩ (z.drop n) := by
  refine ⟨⟨[], [], [], .none k, Or.inl rfl, (take_append_drop n z).symm, rfl⟩, ?_⟩
  have hlen := length_pos_iff.mpr hz
  rw [length_drop]
  omega

theorem Tile.marked {opening closing body : Bytes} {k : TokenKind} {n : Nat} (hm : Marks k opening closing)
    (hopen : opening ≠ []) (hn : body.drop n = [] ∨ ∃ r, body.drop n = closing ++ r) :
    Tile (opening ++ body) ⟨k, body, n⟩ (body.drop (n + closing.length)) := by
  have hlen := length_pos_iff.mpr hopen
  have hbody := (take_append_drop n body).symm
  rw [← drop_drop]
  refine ⟨?_, by simp only [length_drop, length_append]; omega⟩
  rcases hn with hend | ⟨r, hr⟩
  · refine ⟨opening, closing, [], hm, Or.inr ⟨rfl, by simp [hend]⟩, ?_, rfl⟩
    rw [hend] at hbody ⊢
    simpa [Token.text] using hbody
  · refine ⟨opening, closing, closing, hm, Or.inl rfl, ?_, rfl⟩
    rw [hr] at hbody ⊢
    simpa [Token.text] using hbody

/-- A text without the byte goes up to it. -/
theorem drop_takeWhile_ne (q : UInt8) (body : Bytes) :
    body.drop (body.takeWhile fun b => b ≠ q).length = [] ∨
      ∃ r, body.drop (body.takeWhile fun b => b ≠ q).length = [q] ++ r := by
  induction body with
  | nil => exact Or.inl rfl
  | cons b body ih =>
    by_cases hb : b = q
    · exact Or.inr ⟨body, by simp [hb]⟩
    · simpa [hb] using ih

theorem drop_quotedLen (q : UInt8) (body : Bytes) :
    body.drop (quotedLen q body) = [] ∨ ∃ r, body.drop (quotedLen q body) = [q] ++ r := by
  induction body using quotedLen.induct q with
  | case1 => exact Or.inl rfl
  | case2 => exact Or.inr ⟨[], by simp [quotedLen]⟩
  | case3 rest ih => simpa [quotedLen, Nat.add_comm 2] using ih
  | case4 c rest hc => exact Or.inr ⟨c :: rest, by simp [quotedLen, hc]⟩
  | case5 c rest hc ih =>
    have hlen : quotedLen q (c :: rest) = quotedLen q rest + 1 := by
      rw [quotedLen.eq_def, Nat.add_comm]
      simp [hc]
    simpa [hlen] using ih

theorem drop_untilMark (mark body : Bytes) :
    body.drop (untilMark mark body) = [] ∨ ∃ r, body.drop (untilMark mark body) = mark ++ r := by
  induction body with
  | nil => exact Or.inl rfl
  | cons b body ih =>
    by_cases hb : (b :: body).take mark.length = mark
    · have hsplit := take_append_drop mark.length (b :: body)
      rw [hb] at hsplit
      exact Or.inr ⟨_, by rw [untilMark, if_pos hb, drop_zero]; exact hsplit.symm⟩
    · simpa [untilMark, hb, Nat.add_comm 1] using ih

theorem scanNumber_tile {c : UInt8} {rest : Bytes} (h : isDigit c = true ∨ c = chr '.') :
    Tile (c :: rest) (scanNumber (c :: rest)).1 (scanNumber (c :: rest)).2 := by
  have hdec : 0 < ((c :: rest).takeWhile isDigit).length +
      (numberTail ((c :: rest).drop ((c :: rest).takeWhile isDigit).length)).1 := by
    by_cases hc : isDigit c = true
    · simp only [takeWhile_cons_of_pos hc, length_cons]
      omega
    · rcases h with h | rfl
      · exact absurd h hc
      · simp [numberTail, hc]
  have hpos : 0 < (scanNumber (c :: rest)).1.n := by
    simp only [scanNumber]
    split
    · split
      · simp only
        omega
      · exact hdec
    · exact hdec
  exact Tile.plain _ hpos (cons_ne_nil _ _)

theorem scanParam_tile (c : UInt8) (rest : Bytes) :
    Tile (c :: rest) (scanParam (c :: rest)).1 (scanParam (c :: rest)).2 :=
  Tile.plain _ (by omega) (cons_ne_nil _ _)

theorem scanDollar_tile (rest : Bytes) :
    Tile (chr '$' :: rest) (scanDollar (chr '$' :: rest)).1 (scanDollar (chr '$' :: rest)).2 := by
  unfold scanDollar
  dsimp only
  split
  · rename_i c body hbody
    split
    · rename_i hc
      subst hc
      have htag : ∀ c ∈ rest.takeWhile (fun c => isIdChar c && c ≠ chr '$'), isIdChar c = true ∧ c ≠ chr '$' := by
        intro c hc
        simpa using mem_takeWhile_imp hc
      have hrest := takeWhile_append_dropWhile (p := fun c => isIdChar c && c ≠ chr '$') (l := rest)
      have hdrop : (chr '$' :: rest).drop (1 + (rest.takeWhile fun c => isIdChar c && c ≠ chr '$').length) =
          rest.dropWhile fun c => isIdChar c && c ≠ chr '$' := by
        rw [Nat.add_comm, drop_succ_cons]
        exact (congrArg (List.drop _) hrest.symm).trans drop_left
      rw [tail_cons, hdrop] at hbody
      have hz := Tile.marked (.dollar htag) (by simp) (drop_untilMark _ body)
      rw [append_assoc, singleton_append, ← hbody, cons_append, hrest] at hz
      exact hz
    · exact scanParam_tile _ rest
  · exact scanParam_tile _ rest

theorem ite_snd_pos {p : Prop} [Decidable p] {a b : TokenKind × Nat} (ha : 0 < a.2) (hb : 0 < b.2) :
    0 < (if p then a else b).2 := by
  split
  · exact ha
  · exact hb

theorem scanOperator_pos (c next : UInt8) : 0 < (scanOperator c next).2 := by
  unfold scanOperator
  repeat' apply ite_snd_pos
  all_goals try decide
  split <;> decide

theorem scanToken_tile (c : UInt8) (rest : Bytes) :
    Tile (c :: rest) (scanToken c rest).1 (scanToken c rest).2 := by
  unfold scanToken
  dsimp only
  split
  · -- a blob
    rename_i h
    obtain ⟨body, rfl⟩ : ∃ body, rest = quote :: body := by
      cases rest with
      | nil => exact absurd h.2 (by decide)
      | cons q body => exact ⟨body, by rw [← h.2]; rfl⟩
    exact Tile.marked (.blob h.1) (by simp) (drop_takeWhile_ne quote body)
  split
  · rename_i hid
    refine Tile.plain _ ?_ (cons_ne_nil _ _)
    have hchar : isIdChar c = true := by
      simp only [isIdStart, isIdChar, Bool.or_eq_true] at hid ⊢
      tauto
    simp [hchar]
  split
  · rename_i hnum
    refine scanNumber_tile ?_
    simp only [Bool.or_eq_true, Bool.and_eq_true, decide_eq_true_eq] at hnum
    tauto
  split
  · rename_i hc
    subst hc
    exact Tile.marked .string (by simp) (drop_quotedLen quote rest)
  split
  · rename_i hc
    subst hc
    exact Tile.marked .doubleQuoted (by simp) (drop_quotedLen doubleQuote rest)
  split
  · rename_i hc
    subst hc
    exact Tile.marked .backQuoted (by simp) (drop_quotedLen backQuote rest)
  split
  · rename_i hc
    subst hc
    exact Tile.marked .bracketed (by simp) (drop_takeWhile_ne (chr ']') rest)
  split
  · rename_i hc
    subst hc
    exact scanDollar_tile rest
  split
  · exact scanParam_tile c rest
  · exact Tile.plain _ (scanOperator_pos c _) (cons_ne_nil _ _)

/-! ## The calls -/

/-- The calls of `tdb_lex_next` up to the end of the text, with what each of them takes. -/
inductive LexesTo : Bytes → List Token → Prop where
  | eof {z : Bytes} (h : (lexNext z).1.kind = .eof) (hgap : Trivia .blank z) : LexesTo z []
  | next {z gap tail : Bytes} {toks : List Token} (hgap : Trivia .blank gap) (hz : z = gap ++ tail)
      (htile : Tile tail (lexNext z).1 (lexNext z).2) (h : LexesTo (lexNext z).2 toks) :
      LexesTo z ((lexNext z).1 :: toks)

/-- **The lexer tiles its input**: the calls reach the end after at most as many tokens as there are bytes.
Each of them takes a gap and a token with its marks, and at least one byte. -/
theorem lexer_tiles (z : Bytes) : ∃ toks, toks.length ≤ z.length ∧ LexesTo z toks := by
  induction hn : z.length using Nat.strong_induction_on generalizing z with
  | _ n ih =>
    obtain ⟨gap, hgap, htrivia⟩ := skipTrivia_gap .blank z
    cases hskip : skipTrivia .blank z with
    | nil =>
      rw [hskip, append_nil] at hgap
      exact ⟨[], Nat.zero_le _, .eof (by rw [lexNext, hskip]) (hgap ▸ htrivia)⟩
    | cons c rest =>
      have hnext : lexNext z = scanToken c rest := by rw [lexNext, hskip]
      have htile := scanToken_tile c rest
      rw [hskip] at hgap
      rw [← hnext] at htile
      have hlt : (lexNext z).2.length < n := by
        have hz := congrArg List.length hgap
        have hlen := htile.progress
        rw [length_append] at hz
        omega
      obtain ⟨toks, hle, htoks⟩ := ih _ hlt (lexNext z).2 rfl
      exact ⟨_, by simp only [length_cons]; omega, .next htrivia hgap htile htoks⟩

end Tdb.Sql
