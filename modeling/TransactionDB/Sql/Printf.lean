import TransactionDB.Sql.Quoting

/-!
# TransactionDB — printf

`printf_format` of `src/sql/tdb_exec_funcs.inc` and the `printf` function over it. Each conversion is
rebuilt as a spec of its own and printed by `snprintf` into a buffer of 128 bytes, of which one holds the
nul: what a conversion prints is cut behind 127 bytes.

What `snprintf` does with flags, widths and precisions is left to `CPrintf`; the two specs without any are
fixed there.
-/

namespace Tdb.Sql

open List

/-- `snprintf` for one conversion, by its spec. -/
structure CPrintf where
  types : TypeLib
  int : Bytes → Int64 → Bytes
  unsigned : Bytes → UInt64 → Bytes
  /-- The argument is printed as `tdb_value_as_real` of the value. -/
  real : Bytes → Value → Bytes
  str : Bytes → Bytes → Bytes
  int_plain : ∀ i, int [chr '%', chr 'l', chr 'l', chr 'd'] i = intText i
  str_plain : ∀ s, str [chr '%', chr 's'] s = s

def isFlag (c : UInt8) : Bool := c ∈ [chr '-', chr '+', chr ' ', chr '#', chr '0']

def isLengthMark (c : UInt8) : Bool := c ∈ [chr 'h', chr 'l', chr 'z', chr 'j', chr 't']

/-- The flags, width and precision behind a percent sign, and the text from the conversion on. The spec
stops growing at 30 bytes. -/
def conversionSpec (p : Bytes) : Bytes × Bytes :=
  let flags := p.takeWhile isFlag
  let p := p.dropWhile isFlag
  let width := p.takeWhile isDigit
  let p := p.dropWhile isDigit
  let point := if p.head? = some (chr '.') then [chr '.'] else []
  let digits := if point = [] then [] else (p.drop 1).takeWhile isDigit
  let p := if point = [] then p else (p.drop 1).dropWhile isDigit
  ((chr '%' :: (flags ++ width ++ point ++ digits)).take 30, p.dropWhile isLengthMark)

/-- What `snprintf` left in the buffer. -/
def inBuffer (b : Bytes) : Bytes := cstr (b.take 127)

/-- `%q`, `%Q` and `%w`. -/
def printQuoted (conv : UInt8) : Option Bytes → Bytes
  | none => if conv = chr 'Q' then "NULL".toUTF8.toList else []
  | some s => if conv = chr 'Q' then quote :: doubled s ++ [quote] else doubled s

/-- One conversion that takes an argument; `none` for a character that is no conversion. -/
def convert (lib : CPrintf) (spec : Bytes) (conv : UInt8) (arg : Option Value) : Option Bytes :=
  let long := if spec.length < 28 then spec ++ [chr 'l', chr 'l'] else spec
  let int := (arg.map Value.asInt).getD 0
  let text := arg.bind (Value.asText lib.types)
  if conv = chr 'd' ∨ conv = chr 'i' then some (inBuffer (lib.int (long ++ [chr 'd']) int))
  else if conv ∈ [chr 'u', chr 'x', chr 'X', chr 'o'] then
    some (inBuffer (lib.unsigned (long ++ [conv]) int.toUInt64))
  else if conv ∈ [chr 'f', chr 'g', chr 'e', chr 'F', chr 'G', chr 'E'] then
    some (inBuffer (lib.real (spec ++ [conv]) (arg.getD (.int 0))))
  else if conv = chr 's' then some (inBuffer (lib.str (spec ++ [chr 's']) (text.getD [])))
  else if conv = chr 'c' then some [int.toUInt64.toUInt8]
  else if conv ∈ [chr 'q', chr 'Q', chr 'w'] then some (printQuoted conv text)
  else none

/-- The loop of `printf_format`; every round takes a byte of the format. -/
def printfLoop (lib : CPrintf) : Nat → Bytes → List Value → Bytes
  | 0, _, _ | _, [], _ => []
  | fuel + 1, c :: p, args =>
    if c ≠ chr '%' then c :: printfLoop lib fuel p args
    else
      let (spec, q) := conversionSpec p
      match q with
      | [] => c :: p
      | conv :: rest =>
        if conv = chr '%' then chr '%' :: printfLoop lib fuel rest args
        else match convert lib spec conv args.head? with
          | some b => b ++ printfLoop lib fuel rest args.tail
          -- not a conversion: the text of the spec, as it stands
          | none => (c :: p).take (p.length + 1 - rest.length) ++ printfLoop lib fuel rest args

/-- `printf_format`. -/
def printfFormat (lib : CPrintf) (fmt : Bytes) (args : List Value) : Bytes :=
  printfLoop lib fmt.length fmt args

/-- `printf` of its evaluated arguments. -/
def printf (lib : CPrintf) (fmt : Value) (args : List Value) : Value :=
  .text (((fmt.asText lib.types).map fun f => printfFormat lib f args).getD [])

/-! ## Formats of plain conversions -/

/-- A part of a format: an ordinary byte, a doubled percent sign, or one of the two conversions. -/
inductive Piece where
  | byte (c : UInt8) (hc : c ≠ 0 ∧ c ≠ chr '%')
  | percent
  | str
  | int

def Piece.text : Piece → Bytes
  | .byte c _ => [c]
  | .percent => [chr '%', chr '%']
  | .str => [chr '%', chr 's']
  | .int => [chr '%', chr 'd']

def formatText (ps : List Piece) : Bytes := ps.flatMap Piece.text

/-- The format with every conversion replaced by its argument; the arguments may be more than it takes. -/
inductive Substitutes : List Piece → List Value → Bytes → Prop where
  | nil (args : List Value) : Substitutes [] args []
  | byte (c : UInt8) (hc : c ≠ 0 ∧ c ≠ chr '%') {ps : List Piece} {args : List Value} {b : Bytes}
      (h : Substitutes ps args b) : Substitutes (.byte c hc :: ps) args (c :: b)
  | percent {ps : List Piece} {args : List Value} {b : Bytes} (h : Substitutes ps args b) :
      Substitutes (.percent :: ps) args (chr '%' :: b)
  | str (t : Bytes) (ht : ∀ c ∈ t, c ≠ 0) {ps : List Piece} {args : List Value} {b : Bytes}
      (h : Substitutes ps args b) : Substitutes (.str :: ps) (.text t :: args) (t ++ b)
  | int (i : Int64) {ps : List Piece} {args : List Value} {b : Bytes} (h : Substitutes ps args b) :
      Substitutes (.int :: ps) (.int i :: args) (intText i ++ b)

/-- How many arguments a format takes. -/
def conversions : List Piece → Nat
  | [] => 0
  | .str :: ps | .int :: ps => conversions ps + 1
  | _ :: ps => conversions ps

theorem inBuffer_intText (i : Int64) : inBuffer (intText i) = intText i := by
  have hlo := i.le_toInt
  have hhi := i.toInt_lt
  have hnat : ∀ n ≤ 2 ^ 63, (natText n).length ≤ 19 ∧ ∀ c ∈ natText n, c ≠ 0 := fun n hn =>
    ⟨(decimal_natText n).short 18 (by omega),
      fun c hc => by rintro rfl; cases (decimal_natText n).digits 0 hc⟩
  have hprint : (intText i).length ≤ 20 ∧ ∀ c ∈ intText i, c ≠ 0 := by
    cases hi : i.toInt with
    | ofNat n =>
      rw [hi, Int.ofNat_eq_natCast] at hhi
      obtain ⟨hlen, hnul⟩ := hnat n (by omega)
      rw [intText_ofNat hi]
      exact ⟨by omega, hnul⟩
    | negSucc m =>
      rw [hi, Int.negSucc_eq] at hlo
      obtain ⟨hlen, hnul⟩ := hnat (m + 1) (by omega)
      rw [intText_negSucc hi]
      exact ⟨by simpa using Nat.lt_succ_of_le hlen, forall_mem_cons.mpr ⟨by decide, hnul⟩⟩
  rw [inBuffer, take_of_length_le (by omega), cstr_eq hprint.2]

section Rounds

variable (lib : CPrintf) (fuel : Nat) (p : Bytes) (args : List Value)

theorem printfLoop_byte {c : UInt8} (hc : c ≠ chr '%') :
    printfLoop lib (fuel + 1) (c :: p) args = c :: printfLoop lib fuel p args := by
  rw [printfLoop, if_pos hc]

theorem printfLoop_percent :
    printfLoop lib (fuel + 1) (chr '%' :: chr '%' :: p) args = chr '%' :: printfLoop lib fuel p args := rfl

theorem printfLoop_str {t : Bytes} (ht : ∀ c ∈ t, c ≠ 0) :
    printfLoop lib (fuel + 1) (chr '%' :: chr 's' :: p) (.text t :: args) =
      t.take 127 ++ printfLoop lib fuel p args := by
  have hround : printfLoop lib (fuel + 1) (chr '%' :: chr 's' :: p) (.text t :: args) =
      inBuffer (lib.str [chr '%', chr 's'] (cstr t)) ++ printfLoop lib fuel p args := rfl
  rw [hround, lib.str_plain, cstr_eq ht, inBuffer, cstr_eq fun c hc => ht c (mem_of_mem_take hc)]

theorem printfLoop_int (i : Int64) :
    printfLoop lib (fuel + 1) (chr '%' :: chr 'd' :: p) (.int i :: args) =
      intText i ++ printfLoop lib fuel p args := by
  have hround : printfLoop lib (fuel + 1) (chr '%' :: chr 'd' :: p) (.int i :: args) =
      inBuffer (lib.int [chr '%', chr 'l', chr 'l', chr 'd'] i) ++ printfLoop lib fuel p args := rfl
  rw [hround, lib.int_plain, inBuffer_intText]

end Rounds

theorem fuel_cons {x : Piece} {ps : List Piece} {fuel : Nat} (h : (formatText (x :: ps)).length ≤ fuel) :
    ∃ k, fuel = k + 1 ∧ (formatText ps).length ≤ k := by
  have hlt : (formatText ps).length < (formatText (x :: ps)).length := by
    cases x <;> simp [formatText, Piece.text]
  exact ⟨fuel - 1, by omega, by omega⟩

/-- The loop never prints more than the substitution, and as much as it exactly when no text is cut. -/
theorem printfLoop_iff (lib : CPrintf) {ps : List Piece} {args : List Value} {b : Bytes}
    (h : Substitutes ps args b) (fuel : Nat) (hfuel : (formatText ps).length ≤ fuel) :
    (printfLoop lib fuel (formatText ps) args).length ≤ b.length ∧
      (printfLoop lib fuel (formatText ps) args = b ↔
        ∀ t, .text t ∈ args.take (conversions ps) → t.length ≤ 127) := by
  induction h generalizing fuel with
  | nil args => cases fuel <;> simp [formatText, printfLoop, conversions]
  | byte c hc h ih =>
    obtain ⟨fuel, rfl, hk⟩ := fuel_cons hfuel
    simpa [formatText, Piece.text, conversions, printfLoop_byte lib fuel _ _ hc.2] using ih fuel hk
  | percent h ih =>
    obtain ⟨fuel, rfl, hk⟩ := fuel_cons hfuel
    simpa [formatText, Piece.text, conversions, printfLoop_percent] using ih fuel hk
  | @str t ht ps args b h ih =>
    obtain ⟨fuel, rfl, hk⟩ := fuel_cons hfuel
    obtain ⟨hlen, hiff⟩ := ih fuel hk
    have hround := printfLoop_str lib fuel (formatText ps) args ht
    change (printfLoop lib _ (chr '%' :: chr 's' :: formatText ps) _).length ≤ _ ∧
      (printfLoop lib _ (chr '%' :: chr 's' :: formatText ps) _ = _ ↔ _)
    rw [hround, conversions, take_succ_cons]
    have hcut : (t.take 127).length = min 127 t.length := length_take
    refine ⟨by simp only [length_append]; omega, fun heq => ?_, fun hall => ?_⟩
    · have hsum := congrArg List.length heq
      simp only [length_append] at hsum
      have hshort : t.length ≤ 127 := by omega
      rw [take_of_length_le hshort] at heq
      have hrest := hiff.mp (append_cancel_left heq)
      intro u hu
      rcases mem_cons.mp hu with hu | hu
      · cases hu
        exact hshort
      · exact hrest u hu
    · rw [take_of_length_le (hall t (mem_cons_self ..)),
        hiff.mpr fun u hu => hall u (mem_cons_of_mem _ hu)]
  | @int i ps args b h ih =>
    obtain ⟨fuel, rfl, hk⟩ := fuel_cons hfuel
    simpa [formatText, Piece.text, conversions, printfLoop_int] using ih fuel hk

theorem formatText_nul (ps : List Piece) : ∀ c ∈ formatText ps, c ≠ 0 := by
  intro c hc
  obtain ⟨x, -, hx⟩ := mem_flatMap.mp hc
  cases x with
  | byte d hd =>
    cases mem_singleton.mp hx
    exact hd.1
  | percent | str | int =>
    rcases mem_pair.mp hx with rfl | rfl <;> decide

/-- `printf` substitutes its arguments exactly when no text it takes is longer than the buffer. -/
theorem printf_iff (lib : CPrintf) (ps : List Piece) (args : List Value) (b : Bytes)
    (h : Substitutes ps args b) :
    printf lib (.text (formatText ps)) args = .text b ↔
      ∀ t, .text t ∈ args.take (conversions ps) → t.length ≤ 127 := by
  have hfmt : (Value.text (formatText ps)).asText lib.types = some (formatText ps) :=
    congrArg some (cstr_eq (formatText_nul ps))
  rw [printf, hfmt]
  simpa [printfFormat] using (printfLoop_iff lib h _ le_rfl).2

/-- `snprintf` of the plain conversions only. -/
def plainPrintf : CPrintf :=
  ⟨bareEval.types, fun _ i => intText i, fun _ _ => [], fun _ _ => [], fun _ s => s, fun _ => rfl, fun _ => rfl⟩

theorem printf_fits : Substitutes [.str] [.text [97]] [97] ∧
    printf plainPrintf (.text (formatText [.str])) [.text [97]] = .text [97] := by
  have hone : Substitutes [.str] [.text [97]] [97] := .str [97] (by simp) (.nil [])
  refine ⟨hone, (printf_iff plainPrintf _ _ _ hone).mpr fun t ht => ?_⟩
  cases mem_singleton.mp ht
  decide

/-- A text of 128 bytes loses its last one. -/
theorem printf_cut : printf plainPrintf (.text (formatText [.str])) [.text (List.replicate 128 97)] =
    .text (List.replicate 127 97) := by
  decide +kernel

end Tdb.Sql
