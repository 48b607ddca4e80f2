import TransactionDB.Sql.Ast
import TransactionDB.Sql.Rows

/-!
# TransactionDB — evaluating expressions

`eval`, `eval_binary`, `like_match` and `glob_match` of `src/sql/tdb_exec.c`. An operator evaluates its
operands and goes on with their values; nobody looks at the status of an operand. A subquery that fails
counts as one without rows.

The functions of `eval_func` are a parameter: which argument a function evaluates next, given the
values of those before, and the value it comes to. Aggregates and window functions have been computed
before, and the columns have been found (`resolve_expr`); the context gives their values.
-/

namespace Tdb.Sql

/-! ## Text -/

/-- `like_match`. The text ends where the pattern needs more of it; a percent sign that is not the last
wants some text behind it. -/
def likeMatch (esc : Option UInt8) : Bytes → Bytes → Bool
  | [], str => str = []
  | [p], str =>
    if p = 37 then true
    else
      match str with
      | [c] => p = 95 || lowerAscii p = lowerAscii c
      | _ => false
  | p :: p' :: pat, str =>
    if esc = some p then
      match str with
      | c :: str => lowerAscii p' = lowerAscii c && likeMatch esc pat str
      | [] => false
    else if p = 37 then
      if p' = 37 then likeMatch esc (p' :: pat) str
      else str.tails.any fun s => s ≠ [] && likeMatch esc (p' :: pat) s
    else
      match str with
      | c :: str => (p = 95 || lowerAscii p = lowerAscii c) && likeMatch esc (p' :: pat) str
      | [] => false

/-- The part of a class up to its end: whether the byte is in it, and the pattern behind it. -/
def globClass (c : UInt8) (first matched : Bool) : Bytes → Option (Bool × Bytes)
  | [] => none
  | x :: dash :: hi :: rest =>
    if x = 93 ∧ first = false then some (matched, dash :: hi :: rest)
    else if dash = 45 ∧ hi ≠ 93 then globClass c false (matched || (x ≤ c && c ≤ hi)) rest
    else globClass c false (matched || c = x) (dash :: hi :: rest)
  | x :: rest =>
    if x = 93 ∧ first = false then some (matched, rest) else globClass c false (matched || c = x) rest

/-- `glob_match`. -/
def globMatch : Nat → Bytes → Bytes → Bool
  | 0, _, _ => false
  | fuel + 1, pat, str =>
    match pat with
    | [] => str = []
    | 42 :: rest =>
      let rest := rest.dropWhile (· = 42)
      if rest = [] then true else str.tails.any fun s => s ≠ [] && globMatch fuel rest s
    | 63 :: rest =>
      match str with
      | [] => false
      | _ :: str => globMatch fuel rest str
    | 91 :: rest =>
      let neg := rest.head? = some 94
      let body := if neg then rest.drop 1 else rest
      match str with
      | [] => false
      | c :: str =>
        match globClass c true false body with
        | none => false
        | some (matched, rest) => if matched = neg then false else globMatch fuel rest str
    | p :: rest =>
      match str with
      | [] => false
      | c :: str => if p = c then globMatch fuel rest str else false

/-! ## Operators on values -/

/-- An integer for a condition. -/
def boolValue (b : Bool) : Value := .int (if b then 1 else 0)

def CmpOp.holds : CmpOp → Ordering → Bool
  | .eq, c => c = .eq
  | .ne, c => c ≠ .eq
  | .lt, c => c = .lt
  | .le, c => c ≠ .gt
  | .gt, c => c = .gt
  | .ge, c => c ≠ .lt

/-- A call of a function. -/
inductive FuncRun where
  /-- The function is done. -/
  | done (rc : Status) (v : Value)
  /-- It evaluates an argument. -/
  | arg (i : Nat) (next : Value → FuncRun)

def FuncRun.run : FuncRun → List Value → Status × Value
  | .done rc v, _ => (rc, v)
  | .arg i next, vs => (next (cellAt vs i)).run vs

/-- What evaluation takes from elsewhere. -/
structure EvalLib where
  types : TypeLib
  fmod : Float → Float → Float
  /-- A function by its name and the number of its arguments. -/
  func : Bytes → Nat → FuncRun

/-- `tdb_value_as_real`. -/
def realOf (lib : TypeLib) : Value → Float
  | .int i => i.toFloat
  | .real bits => Float.ofBits bits
  | .text b => Float.ofBits (lib.strtod (cstr b)).1
  | _ => 0

/-- The value of a comparison. -/
def compareValues (op : CmpOp) (l r : Value) : Value :=
  if l = .null ∨ r = .null then .null else boolValue (op.holds (valueCompare l r .binary))

/-- `IS`. -/
def isValue (negated : Bool) (l r : Value) : Value :=
  let eq : Bool :=
    if l = .null ∧ r = .null then true
    else if l = .null ∨ r = .null then false
    else valueCompare l r .binary = .eq
  boolValue (if negated then !eq else eq)

/-- `LIKE`, with the value of ESCAPE. -/
def likeValue (lib : TypeLib) (negated : Bool) (l r : Value) (esc : Option Value) : Value :=
  if l = .null ∨ r = .null then .null
  else
    let escape := (esc.bind (Value.asText lib)).bind List.head?
    let m := likeMatch escape ((r.asText lib).getD []) ((l.asText lib).getD [])
    boolValue (if negated then !m else m)

/-- `GLOB`. -/
def globValue (lib : TypeLib) (negated : Bool) (l r : Value) : Value :=
  if l = .null ∨ r = .null then .null
  else
    let pat := (r.asText lib).getD []
    let m := globMatch (pat.length + 1) pat ((l.asText lib).getD [])
    boolValue (if negated then !m else m)

/-- `BETWEEN`: NULL is compared like a value. -/
def betweenValue (negated : Bool) (x lo hi : Value) : Value :=
  let res := CmpOp.ge.holds (valueCompare x lo .binary) && CmpOp.le.holds (valueCompare x hi .binary)
  boolValue (if negated then !res else res)

/-- Whether a value is among others; NULL is not. -/
def amongValues (x : Value) (vs : List Value) : Bool :=
  vs.any fun v => x ≠ .null && v ≠ .null && valueCompare x v .binary = .eq

def inValue (negated : Bool) (x : Value) (vs : List Value) : Value :=
  let res := amongValues x vs
  boolValue (if negated then !res else res)

/-- A shift to the left, or to the right for a negative count. -/
def shiftLeft (a b : Int64) : Int64 :=
  if b.toInt ≤ -64 ∨ 64 ≤ b.toInt then 0
  else if b < 0 then (a.toUInt64 >>> (-b).toUInt64).toInt64
  else (a.toUInt64 <<< b.toUInt64).toInt64

def shiftRight (a b : Int64) : Int64 :=
  if b.toInt ≤ -64 ∨ 64 ≤ b.toInt then 0
  else if b < 0 then (a.toUInt64 <<< (-b).toUInt64).toInt64
  else (a.toUInt64 >>> b.toUInt64).toInt64

/-- Arithmetic on doubles. -/
def realArith (L : EvalLib) (op : BinaryOp) (a b : Float) : Value :=
  match op with
  | .plus => .real (a + b).toBits
  | .minus => .real (a - b).toBits
  | .star => .real (a * b).toBits
  | .slash => if b == 0 then .null else .real (a / b).toBits
  | .percent => if b == 0 then .null else .real (L.fmod a b).toBits
  | _ => .real 0

/-- Arithmetic. -/
def arithValue (L : EvalLib) (op : BinaryOp) (l r : Value) : Value :=
  match l, r with
  | .int a, .int b =>
    match op with
    | .plus => .int (a + b)
    | .minus => .int (a - b)
    | .star => .int (a * b)
    | .slash => if b = 0 then .null else .int (a / b)
    | .percent => if b = 0 then .null else .int (a % b)
    | _ => realArith L op a.toFloat b.toFloat
  | l, r => realArith L op (realOf L.types l) (realOf L.types r)

/-- `eval_binary` on the values of both operands; AND and OR are not among them. -/
def binaryValue (L : EvalLib) (op : BinaryOp) (l r : Value) : Value :=
  match op with
  | .cmp op => compareValues op l r
  | op =>
    if l = .null ∨ r = .null then .null
    else
      match op with
      | .concat => .text ((l.asText L.types).getD [] ++ (r.asText L.types).getD [])
      | .bitAnd => .int (l.asInt &&& r.asInt)
      | .bitOr => .int (l.asInt ||| r.asInt)
      | .shl => .int (shiftLeft l.asInt r.asInt)
      | .shr => .int (shiftRight l.asInt r.asInt)
      | op => arithValue L op l r

def unaryValue (op : UnaryOp) (v : Value) : Value :=
  match op with
  | .not => boolValue (!valTrue v)
  | .minus =>
    match v with
    | .real bits => .real (-Float.ofBits bits).toBits
    | .int i => .int (-i)
    | _ => .null
  | .bitNot => if v = .null then .null else .int (~~~v.asInt)
  | .plus => v

/-- What `tdb_typespec_coerce` leaves of a value that it rejects. -/
def castResidue (lib : TypeLib) (ts : TypeSpec) (v : Value) : Value :=
  match ts.id, v with
  | .decimal, .int i => .text (intText i)
  | .decimal, .real bits => .text (lib.realText bits)
  | .char, .blob b | .varchar, .blob b | .text, .blob b | .json, .blob b => .text b
  | .char, v | .varchar, v | .text, v | .json, v | .xml, v | .interval, v => .text (materializeText lib v)
  | _, v => v

def castValue (lib : TypeLib) (ts : TypeSpec) (v : Value) : Value :=
  match typespecCoerce lib ts v with
  | .ok w => w
  | .error _ => castResidue lib ts v

/-! ## Evaluation -/

/-- A subquery that was run: its rows or its error, and the errors of the subqueries that failed while it
ran. -/
structure SubRun where
  result : Except Status (List Row)
  inner : List Status

/-- `ectx`, and the statement it belongs to. -/
structure Ectx where
  cell : Option Bytes → Bytes → Value
  params : List Value
  agg : Bytes → Bool → List Expr → Value
  win : Bytes → List Expr → List Expr → List Expr → Value
  /-- `run_subselect`. -/
  run : Select → SubRun

/-- What an expression sees that was not resolved. -/
def Ectx.unresolved (c : Ectx) : Ectx :=
  { c with cell := fun _ _ => .null, agg := fun _ _ _ => .null, win := fun _ _ _ _ => .null }

/-- The value bound to a slot. -/
def paramValue (params : List Value) (slot : Option Nat) : Value :=
  match slot with
  | some i => cellAt params i
  | none => .null

/-- The rows of a subquery; none if it fails. -/
def SubRun.rows (r : SubRun) : List Row :=
  match r.result with
  | .ok rows => rows
  | .error _ => []

/-- The values of the first column of a subquery. -/
def Ectx.firsts (c : Ectx) (q : Select) : List Value := (c.run q).rows.filterMap List.head?

/-- Whether a CASE takes an arm: the base is equal to the value, or there is none and it is true. -/
def caseHit (base : Option Value) (w : Value) : Bool :=
  match base with
  | some b => valueCompare b w .binary = .eq
  | none => valTrue w

section Eval

variable (L : EvalLib)

mutual

/-- `eval`. The ESCAPE of a LIKE is not resolved. -/
def eval (c : Ectx) : Expr → Status × Value
  | .literal v => (.ok, v)
  | .null => (.ok, .null)
  | .column table name => (.ok, c.cell table name)
  | .param slot => (.ok, paramValue c.params slot)
  | .star => (.ok, .null)
  | .unary op left => (.ok, unaryValue op (eval c left).2)
  | .binary .and left right => (.ok, boolValue (valTrue (eval c left).2 && valTrue (eval c right).2))
  | .binary .or left right => (.ok, boolValue (valTrue (eval c left).2 || valTrue (eval c right).2))
  | .binary op left right => (.ok, binaryValue L op (eval c left).2 (eval c right).2)
  | .is negated left right => (.ok, isValue negated (eval c left).2 (eval c right).2)
  | .like negated left right escape =>
    (.ok, likeValue L.types negated (eval c left).2 (eval c right).2 (evalOption c.unresolved escape))
  | .glob negated left right => (.ok, globValue L.types negated (eval c left).2 (eval c right).2)
  | .between negated left lo hi => (.ok, betweenValue negated (eval c left).2 (eval c lo).2 (eval c hi).2)
  | .inList negated left args => (.ok, inValue negated (eval c left).2 (evalList c args))
  | .inQuery negated left q => (.ok, inValue negated (eval c left).2 (c.firsts q))
  | .subquery q => (.ok, ((c.run q).rows.head?.bind List.head?).getD .null)
  | .exists q => (.ok, boolValue ((c.run q).rows ≠ []))
  | .case base args els =>
    (.ok, (evalWhens c (evalOption c base) args).getD ((evalOption c els).getD .null))
  | .func name args => (L.func name args.length).run (evalList c args)
  | .agg name distinct args => (.ok, c.agg name distinct args)
  | .window name args partition order _ => (.ok, c.win name args partition order)
  | .cast left type => (.ok, castValue L.types type (eval c left).2)

/-- The values of the arguments, for those that are evaluated. -/
def evalList (c : Ectx) : List Expr → List Value
  | [] => []
  | e :: es => (eval c e).2 :: evalList c es

def evalOption (c : Ectx) : Option Expr → Option Value
  | none => none
  | some e => some (eval c e).2

/-- The arms of a CASE: the value of the first that is hit. -/
def evalWhens (c : Ectx) (base : Option Value) : List Expr → Option Value
  | w :: v :: rest => if caseHit base (eval c w).2 then some (eval c v).2 else evalWhens c base rest
  | _ => none

end

end Eval

/-- No function is known. -/
def bareEval : EvalLib where
  types := ⟨fun _ => (0, 0), fun _ => [], fun _ => .error none, fun _ => false, fun _ => false⟩
  fmod a _ := a
  func _ _ := .done .error .null

/-- No columns, parameters or subqueries. -/
def bareCtx : Ectx :=
  ⟨fun _ _ => .null, [], fun _ _ _ => .null, fun _ _ _ _ => .null, fun _ => ⟨.ok [], []⟩⟩

end Tdb.Sql
