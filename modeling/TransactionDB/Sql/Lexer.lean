import TransactionDB.Value.SqlType

/-!
# TransactionDB — the tokens of SQL text

`src/sql/tdb_lexer.c`. A pointer into the text is the text from there on; a token is such a pointer
and a length. The pointer of a quoted token is behind the quote. Left out are the values of numbers
and the list of keywords that is only shown to users.
-/

namespace Tdb.Sql

open List

/-- The keywords of `tdb_token_kind` that the lexer knows. -/
inductive Keyword where
  | select | fromKw | whereKw | group | byKw | having | order | asc | desc | limit | offset
  | distinct | allKw | asKw | join | inner | left | right | full | outer | cross | onKw | usingKw
  | andKw | orKw | notKw | nullKw | isKw | inKw | like | between | existsKw | caseKw | when
  | thenKw | elseKw | endKw | cast | trueKw | falseKw | insert | into | values | update | setKw
  | delete | create | table | index | unique | view | materialized | drop | ifKw | temp | primary
  | key | foreign | references | defaultKw | check | collate | constraint | autoincrement
  | generated | always | stored | virtual | withKw | system | versioning | period | forKw
  | beginKw | commit | rollback | transaction | savepoint | release | toKw | function | procedure
  | language | returns | call | prepare | alter | add | column | rename | union | except
  | intersect | explain | vacuum | returning | glob | escape | tablespace | partition | truncate
  | analyze | reindex | comment | compression | grant | revoke | attach | detach | database
  | lock | location
  deriving DecidableEq, Repr

/-- `tdb_token_kind`. -/
inductive TokenKind where
  | eof | illegal
  | id | string | integer | float | blob | param
  | lp | rp | comma | semi | dot | star
  | plus | minus | slash | percent
  | eq | ne | lt | le | gt | ge | concat
  | bitand | bitor | bitnot | shl | shr
  | kw (k : Keyword)
  deriving DecidableEq, Repr

/-- `k_keywords`. -/
def keywords : List (String × Keyword) :=
  [("SELECT", .select), ("FROM", .fromKw), ("WHERE", .whereKw), ("GROUP", .group), ("BY", .byKw),
   ("HAVING", .having), ("ORDER", .order), ("ASC", .asc), ("DESC", .desc), ("LIMIT", .limit),
   ("OFFSET", .offset), ("DISTINCT", .distinct), ("ALL", .allKw), ("AS", .asKw), ("JOIN", .join),
   ("INNER", .inner), ("LEFT", .left), ("RIGHT", .right), ("FULL", .full), ("OUTER", .outer),
   ("CROSS", .cross), ("ON", .onKw), ("USING", .usingKw), ("AND", .andKw), ("OR", .orKw),
   ("NOT", .notKw), ("NULL", .nullKw), ("IS", .isKw), ("IN", .inKw), ("LIKE", .like),
   ("BETWEEN", .between), ("EXISTS", .existsKw), ("CASE", .caseKw), ("WHEN", .when),
   ("THEN", .thenKw), ("ELSE", .elseKw), ("END", .endKw), ("CAST", .cast), ("TRUE", .trueKw),
   ("FALSE", .falseKw), ("INSERT", .insert), ("INTO", .into), ("VALUES", .values),
   ("UPDATE", .update), ("SET", .setKw), ("DELETE", .delete), ("CREATE", .create),
   ("TABLE", .table), ("INDEX", .index), ("UNIQUE", .unique), ("VIEW", .view),
   ("MATERIALIZED", .materialized), ("DROP", .drop), ("IF", .ifKw), ("TEMP", .temp),
   ("TEMPORARY", .temp), ("PRIMARY", .primary), ("KEY", .key), ("FOREIGN", .foreign),
   ("REFERENCES", .references), ("DEFAULT", .defaultKw), ("CHECK", .check),
   ("COLLATE", .collate), ("CONSTRAINT", .constraint), ("AUTOINCREMENT", .autoincrement),
   ("GENERATED", .generated), ("ALWAYS", .always), ("STORED", .stored), ("VIRTUAL", .virtual),
   ("WITH", .withKw), ("SYSTEM", .system), ("VERSIONING", .versioning), ("PERIOD", .period),
   ("FOR", .forKw), ("BEGIN", .beginKw), ("COMMIT", .commit), ("ROLLBACK", .rollback),
   ("TRANSACTION", .transaction), ("SAVEPOINT", .savepoint), ("RELEASE", .release),
   ("TO", .toKw), ("FUNCTION", .function), ("PROCEDURE", .procedure), ("LANGUAGE", .language),
   ("RETURNS", .returns), ("CALL", .call), ("PREPARE", .prepare), ("ALTER", .alter),
   ("ADD", .add), ("COLUMN", .column), ("RENAME", .rename), ("UNION", .union),
   ("EXCEPT", .except), ("INTERSECT", .intersect), ("EXPLAIN", .explain), ("VACUUM", .vacuum),
   ("RETURNING", .returning), ("GLOB", .glob), ("ESCAPE", .escape), ("TABLESPACE", .tablespace),
   ("PARTITION", .partition), ("TRUNCATE", .truncate), ("ANALYZE", .analyze),
   ("REINDEX", .reindex), ("COMMENT", .comment), ("COMPRESSION", .compression),
   ("GRANT", .grant), ("REVOKE", .revoke), ("ATTACH", .attach), ("DETACH", .detach),
   ("DATABASE", .database), ("LOCK", .lock), ("LOCATION", .location)]

/-- `tdb_keyword_lookup`. -/
def keywordLookup (w : Bytes) : TokenKind :=
  match keywords.find? fun k => sameName w k.1.toUTF8.toList with
  | some (_, k) => .kw k
  | none => .id

/-- `tdb_token`. -/
structure Token where
  kind : TokenKind
  z : Bytes
  n : Nat
  deriving DecidableEq, Repr

def Token.text (t : Token) : Bytes := t.z.take t.n

/-- The code of an ASCII character. -/
def chr (c : Char) : UInt8 := c.val.toUInt8

def newline : UInt8 := 10

/-- The marks that quote: single, double and back. -/
def quote : UInt8 := 39

def doubleQuote : UInt8 := 34

def backQuote : UInt8 := 96

/-- `isalpha`. -/
def isAlpha (c : UInt8) : Bool := (chr 'A' ≤ c ∧ c ≤ chr 'Z') ∨ (chr 'a' ≤ c ∧ c ≤ chr 'z')

def isIdStart (c : UInt8) : Bool := isAlpha c || c = chr '_'

def isIdChar (c : UInt8) : Bool := isAlpha c || isDigit c || c = chr '_' || c = chr '$'

/-- `isxdigit`. -/
def isXDigit (c : UInt8) : Bool :=
  isDigit c || (chr 'A' ≤ c ∧ c ≤ chr 'F') || (chr 'a' ≤ c ∧ c ≤ chr 'f')

/-- Where `skip_trivia` is: between tokens, or in a comment to the end of the line or to the next
closing mark. -/
inductive TriviaMode where
  | blank
  | line
  | block

/-- `skip_trivia`. -/
def skipTrivia : TriviaMode → Bytes → Bytes
  | _, [] => []
  | .blank, [c] => if isSpace c then [] else [c]
  | .blank, c :: c' :: rest =>
    if isSpace c then skipTrivia .blank (c' :: rest)
    else if c = chr '-' ∧ c' = chr '-' then skipTrivia .line rest
    else if c = chr '/' ∧ c' = chr '*' then skipTrivia .block rest
    else c :: c' :: rest
  | .line, c :: rest => if c = newline then skipTrivia .blank rest else skipTrivia .line rest
  | .block, [_] => []
  | .block, c :: c' :: rest =>
    if c = chr '*' ∧ c' = chr '/' then skipTrivia .blank rest else skipTrivia .block (c' :: rest)

/-- The length of what stands before the closing quote; a doubled quote does not close. -/
def quotedLen (delim : UInt8) : Bytes → Nat
  | [] => 0
  | c :: rest =>
    if c = delim then
      match rest with
      | [] => 0
      | c' :: rest' => if c' = delim then 2 + quotedLen delim rest' else 0
    else 1 + quotedLen delim rest

/-- `scan_quoted`, behind the opening quote. -/
def scanQuoted (delim : UInt8) (k : TokenKind) (z : Bytes) : Token × Bytes :=
  (⟨k, z, quotedLen delim z⟩, z.drop (quotedLen delim z + 1))

/-- The digits behind a number's first part: a fraction, then an exponent. -/
def numberTail (z : Bytes) : Nat × Bool :=
  let frac :=
    match z with
    | c :: rest => if c = chr '.' then 1 + (rest.takeWhile isDigit).length else 0
    | [] => 0
  let exp :=
    match z.drop frac with
    | c :: rest =>
      if c = chr 'e' ∨ c = chr 'E' then
        let sign :=
          match rest with
          | s :: _ => if s = chr '+' ∨ s = chr '-' then 1 else 0
          | [] => 0
        1 + sign + ((rest.drop sign).takeWhile isDigit).length
      else 0
    | [] => 0
  (frac + exp, 0 < frac ∨ 0 < exp)

/-- A number. -/
def scanNumber (z : Bytes) : Token × Bytes :=
  let hex : Bool :=
    match z with
    | c :: x :: _ => c = chr '0' && (x = chr 'x' || x = chr 'X')
    | _ => false
  let (n, isFloat) :=
    if hex then (2 + ((z.drop 2).takeWhile isXDigit).length, false)
    else
      let whole := (z.takeWhile isDigit).length
      let (n, isFloat) := numberTail (z.drop whole)
      (whole + n, isFloat)
  (⟨if isFloat then .float else .integer, z, n⟩, z.drop n)

/-- The length of a text up to the mark, or to its end. -/
def untilMark (mark : Bytes) : Bytes → Nat
  | [] => 0
  | c :: rest => if (c :: rest).take mark.length = mark then 0 else 1 + untilMark mark rest

/-- A parameter, whose first byte is its mark. -/
def scanParam (z : Bytes) : Token × Bytes :=
  let n := 1 + (z.tail.takeWhile isIdChar).length
  (⟨.param, z, n⟩, z.drop n)

/-- Behind `$`: a text in dollar quotes, or a parameter. -/
def scanDollar (z : Bytes) : Token × Bytes :=
  let tag := z.tail.takeWhile fun c => isIdChar c && c ≠ chr '$'
  match z.drop (1 + tag.length) with
  | c :: body =>
    if c = chr '$' then
      let mark := chr '$' :: tag ++ [chr '$']
      let n := untilMark mark body
      (⟨.string, body, n⟩, body.drop (n + mark.length))
    else scanParam z
  | [] => scanParam z

/-- Operators and punctuation: the kind and the length. -/
def scanOperator (c : UInt8) (next : UInt8) : TokenKind × Nat :=
  if c = chr '(' then (.lp, 1)
  else if c = chr ')' then (.rp, 1)
  else if c = chr ',' then (.comma, 1)
  else if c = chr ';' then (.semi, 1)
  else if c = chr '.' then (.dot, 1)
  else if c = chr '*' then (.star, 1)
  else if c = chr '+' then (.plus, 1)
  else if c = chr '-' then (.minus, 1)
  else if c = chr '/' then (.slash, 1)
  else if c = chr '%' then (.percent, 1)
  else if c = chr '=' then (.eq, if next = chr '=' then 2 else 1)
  else if c = chr '<' then
    if next = chr '=' then (.le, 2)
    else if next = chr '>' then (.ne, 2)
    else if next = chr '<' then (.shl, 2)
    else (.lt, 1)
  else if c = chr '>' then
    if next = chr '=' then (.ge, 2)
    else if next = chr '>' then (.shr, 2)
    else (.gt, 1)
  else if c = chr '!' then (if next = chr '=' then (.ne, 2) else (.illegal, 1))
  else if c = chr '|' then (if next = chr '|' then (.concat, 2) else (.bitor, 1))
  else if c = chr '&' then (.bitand, 1)
  else if c = chr '~' then (.bitnot, 1)
  else (.illegal, 1)

/-- A token that starts with the byte `c`. -/
def scanToken (c : UInt8) (rest : Bytes) : Token × Bytes :=
  let z := c :: rest
  let next := rest.headD 0
  if (c = chr 'x' ∨ c = chr 'X') ∧ next = quote then
    let body := rest.tail
    let n := (body.takeWhile fun b => b ≠ quote).length
    (⟨.blob, body, n⟩, body.drop (n + 1))
  else if isIdStart c then
    let w := z.takeWhile isIdChar
    (⟨keywordLookup w, z, w.length⟩, z.drop w.length)
  else if isDigit c || (c = chr '.' && isDigit next) then scanNumber z
  else if c = quote then scanQuoted c .string rest
  else if c = doubleQuote then scanQuoted c .id rest
  else if c = backQuote then scanQuoted c .id rest
  else if c = chr '[' then
    let n := (rest.takeWhile fun b => b ≠ chr ']').length
    (⟨.id, rest, n⟩, rest.drop (n + 1))
  else if c = chr '$' then scanDollar z
  else if c = chr '?' ∨ c = chr ':' ∨ c = chr '@' then scanParam z
  else
    let (k, n) := scanOperator c next
    (⟨k, z, n⟩, z.drop n)

/-- `tdb_lex_next`. -/
def lexNext (z : Bytes) : Token × Bytes :=
  match skipTrivia .blank z with
  | [] => (⟨.eof, [], 0⟩, [])
  | c :: rest => scanToken c rest

/-! ## Words between blanks -/

/-- An identifier or keyword, as it stands in the text. -/
structure IsWord (w : Bytes) : Prop where
  start : ∃ c rest, w = c :: rest ∧ isIdStart c = true
  chars : ∀ c ∈ w, isIdChar c = true

instance (w : Bytes) : Decidable (IsWord w) :=
  decidable_of_iff (w.head?.any isIdStart = true ∧ w.all isIdChar = true) (by
    rw [all_eq_true]
    refine ⟨fun h => ⟨?_, h.2⟩, fun h => ⟨?_, h.chars⟩⟩
    · cases w with
      | nil => exact absurd h.1 (by simp)
      | cons c r => exact ⟨c, r, rfl, h.1⟩
    · obtain ⟨c, r, rfl, hc⟩ := h.start
      exact hc)

/-- Every byte is one of 256. -/
theorem forall_byte {p : UInt8 → Prop} (h : ∀ n : Fin 256, p (.ofFin n)) (b : UInt8) : p b := h b.toFin

theorem isIdStart_not_trivia (c : UInt8) :
    isIdStart c = true → isSpace c = false ∧ c ≠ chr '-' ∧ c ≠ chr '/' :=
  forall_byte (p := fun c => isIdStart c = true → isSpace c = false ∧ c ≠ chr '-' ∧ c ≠ chr '/')
    (by decide +kernel) c

theorem isSpace_not_idChar (c : UInt8) : isSpace c = true → isIdChar c = false ∧ c ≠ quote :=
  forall_byte (p := fun c => isSpace c = true → isIdChar c = false ∧ c ≠ quote) (by decide +kernel) c

theorem skipTrivia_cons_blank {c : UInt8} (hc : isSpace c = true) (z : Bytes) :
    skipTrivia .blank (c :: z) = skipTrivia .blank z := by
  cases z with
  | nil | cons c' z => simp [skipTrivia, hc]

theorem skipTrivia_append {b : Bytes} (hb : ∀ c ∈ b, isSpace c = true) (z : Bytes) :
    skipTrivia .blank (b ++ z) = skipTrivia .blank z := by
  induction b with
  | nil => rfl
  | cons c b ih =>
    rw [cons_append, skipTrivia_cons_blank (hb c mem_cons_self),
      ih (forall_mem_cons.mp hb).2]

/-- A byte that starts neither a blank nor a comment stays. -/
theorem skipTrivia_start {c : UInt8} (hspace : isSpace c = false) (hminus : c ≠ chr '-') (hslash : c ≠ chr '/')
    (z : Bytes) : skipTrivia .blank (c :: z) = c :: z := by
  cases z with
  | nil => simp [skipTrivia, hspace]
  | cons c' z => simp [skipTrivia, hspace, hminus, hslash]

theorem skipTrivia_word {c : UInt8} (hc : isIdStart c = true) (z : Bytes) :
    skipTrivia .blank (c :: z) = c :: z := by
  obtain ⟨hspace, hminus, hslash⟩ := isIdStart_not_trivia c hc
  exact skipTrivia_start hspace hminus hslash z

/-- Text in blanks has no token. -/
theorem lexNext_blank {b : Bytes} (hb : ∀ c ∈ b, isSpace c = true) : lexNext b = (⟨.eof, [], 0⟩, []) := by
  have hskip := skipTrivia_append hb []
  rw [append_nil] at hskip
  rw [lexNext, hskip]
  rfl

/-- A word that ends at a blank, or at the end of the text. -/
theorem lexNext_word {b w rest : Bytes} (hb : ∀ c ∈ b, isSpace c = true) (hw : IsWord w)
    (hrest : ∀ c r, rest = c :: r → isSpace c = true) :
    lexNext (b ++ (w ++ rest)) = (⟨keywordLookup w, w ++ rest, w.length⟩, rest) := by
  obtain ⟨c, w', rfl, hc⟩ := hw.start
  have hnext : (w' ++ rest).headD 0 ≠ quote := by
    cases w' with
    | nil =>
      cases rest with
      | nil => decide
      | cons c' r => exact (isSpace_not_idChar c' (hrest c' r rfl)).2
    | cons c' w' =>
      have hc' := hw.chars c' (by simp)
      exact (forall_byte (p := fun c => isIdChar c = true → c ≠ quote) (by decide +kernel)) c' hc'
  have htake : (c :: (w' ++ rest)).takeWhile isIdChar = c :: w' := by
    rw [← cons_append, takeWhile_append_of_pos hw.chars]
    cases rest with
    | nil => simp
    | cons c' r => simp [(isSpace_not_idChar c' (hrest c' r rfl)).1]
  rw [lexNext, skipTrivia_append hb, cons_append, skipTrivia_word hc]
  simp only [scanToken, if_neg fun h : (_ ∧ _) => hnext h.2, hc, if_true, htake]
  simp

end Tdb.Sql
