import TransactionDB.Lib.Fueled
import TransactionDB.Sql.Eval

/-!
# TransactionDB — the parser of expressions

`binprec`, `parse_primary`, `parse_unary`, `parse_expr` and `tdb_parse_expression` of `src/sql/tdb_parser.c`,
over the tokens of names, literals, parentheses, operators, IN, LIKE, GLOB, BETWEEN and IS. A literal token is
given by its value. The first error decides, so an error ends the parse here.

The parser of the source forgets parentheses. Here they are kept (`ParTree.paren`), since what was written in
parentheses is not told from what was grouped by precedence without them; `ParTree.strip` is the tree that the
source builds.
-/

namespace Tdb.Sql

open Fueled

/-- Tokens of expressions. -/
inductive ExprTok where
  | id (name : Bytes)
  | lit (v : Value)
  /-- A blob literal that is refused, with the reason. -/
  | badLit (what : String)
  | null
  | lp
  | rp
  | comma
  /-- A binary operator; `-` and `+` are unary ones too, and `*` is an operand too. -/
  | bin (op : BinaryOp)
  | bitNot
  | not
  | is
  | inKw
  | like
  | glob
  | between
  deriving DecidableEq

/-- Expressions with the parentheses that were written. -/
inductive ParTree where
  | lit (v : Value)
  | null
  | column (name : Bytes)
  | star
  | call (name : Bytes) (args : List ParTree)
  /-- `f(...) OVER ()`, and how OVER was written. -/
  | window (name : Bytes) (args : List ParTree) (word : Bytes)
  | paren (t : ParTree)
  | unary (op : UnaryOp) (t : ParTree)
  | binary (op : BinaryOp) (l r : ParTree)
  | is (negated : Bool) (l r : ParTree)
  | like (glob negated : Bool) (l r : ParTree)
  | between (negated : Bool) (l lo hi : ParTree)
  | inList (negated : Bool) (l : ParTree) (args : List ParTree)

/-- `is_agg_name`. -/
def isAggName (name : Bytes) : Bool :=
  ["count", "sum", "avg", "min", "max", "total", "group_concat"].any fun agg =>
    sameName name agg.toUTF8.toList

mutual

/-- The `tdb_expr`. -/
def ParTree.strip : ParTree → Expr
  | .lit v => .literal v
  | .null => .null
  | .column name => .column none name
  | .star => .star
  | .call name args => if isAggName name then .agg name false (stripAll args) else .func name (stripAll args)
  | .window name args _ => .window name (stripAll args) [] [] []
  | .paren t => t.strip
  | .unary op t => .unary op t.strip
  | .binary op l r => .binary op l.strip r.strip
  | .is negated l r => .is negated l.strip r.strip
  | .like true negated l r => .glob negated l.strip r.strip
  | .like false negated l r => .like negated l.strip r.strip none
  | .between negated l lo hi => .between negated l.strip lo.strip hi.strip
  | .inList negated l args => .inList negated l.strip (stripAll args)

def stripAll : List ParTree → List Expr
  | [] => []
  | t :: ts => t.strip :: stripAll ts

end

/-- `set_err`: the token it is near to, and the message. -/
structure ParseErr where
  near : Option ExprTok
  what : String

abbrev Parsed (α : Type) := Res ExprTok ParseErr α

/-! ## Tokens -/

def opPrec : BinaryOp → Nat
  | .or => 1
  | .and => 2
  | .cmp _ => 4
  | .bitAnd | .bitOr | .shl | .shr => 5
  | .plus | .minus => 6
  | .star | .slash | .percent => 7
  | .concat => 8

/-- `binprec`. -/
def binprec : ExprTok → Nat
  | .bin op => opPrec op
  | .is | .inKw | .like | .glob | .between => 4
  | _ => 0

/-- What the loop of `parse_expr` does with an operator. -/
inductive LoopOp where
  | between
  | inList
  | is
  | like (glob : Bool)
  | bin (op : BinaryOp)

def loopOp : ExprTok → Option LoopOp
  | .between => some .between
  | .inKw => some .inList
  | .is => some .is
  | .like => some (.like false)
  | .glob => some (.like true)
  | .bin op => some (.bin op)
  | _ => none

/-- The operators that NOT may stand in front of. -/
def takesNot : ExprTok → Bool
  | .inKw | .like | .glob | .between => true
  | _ => false

/-- The look ahead of the loop: a NOT in front of such an operator is taken, any other is left. -/
def takeNot : List ExprTok → Bool × List ExprTok
  | .not :: tok :: ts => if takesNot tok then (true, tok :: ts) else (false, .not :: tok :: ts)
  | ts => (false, ts)

/-- The operator with which the loop goes on, whether it is negated, and the tokens behind it. -/
def nextOp (minprec : Nat) (ts : List ExprTok) : Option (Bool × LoopOp × List ExprTok) :=
  match (takeNot ts).2 with
  | [] => none
  | tok :: rest =>
    if binprec tok < minprec ∨ binprec tok = 0 then none
    else (loopOp tok).map fun op => ((takeNot ts).1, op, rest)

/-- `expect`. -/
def expectTok (tok : ExprTok) (what : String) : List ExprTok → Parsed Unit
  | [] => .err ⟨none, what⟩
  | t :: ts => if t = tok then .ok () ts else .err ⟨some t, what⟩

/-- `accept(p, TK_NOT)`. -/
def acceptNot : List ExprTok → Bool × List ExprTok
  | .not :: ts => (true, ts)
  | ts => (false, ts)

/-- `id_is(&p->cur, "OVER")`. -/
def isOver (name : Bytes) : Bool := sameName name "OVER".toUTF8.toList

/-- Behind the arguments of a call: OVER makes it a window function. -/
def overClause (name : Bytes) (args : List ParTree) : List ExprTok → Parsed ParTree
  | .id word :: ts =>
    if isOver word then
      (expectTok .lp "expected ( after OVER" ts).bind fun _ ts =>
        (expectTok .rp "expected ) after OVER" ts).bind fun _ ts => .ok (.window name args word) ts
    else .ok (.call name args) (.id word :: ts)
  | ts => .ok (.call name args) ts

/-! ## The parser -/

mutual

/-- `parse_primary`. -/
def parsePrimary : Nat → List ExprTok → Parsed ParTree
  | 0, _ => .out
  | _ + 1, .lit v :: ts => .ok (.lit v) ts
  | _ + 1, .badLit what :: _ => .err ⟨some (.badLit what), what⟩
  | _ + 1, .null :: ts => .ok .null ts
  | _ + 1, .bin .star :: ts => .ok .star ts
  | n + 1, .lp :: ts =>
    (parseExpr n 0 ts).bind fun t ts => (expectTok .rp "expected )" ts).bind fun _ ts => .ok (.paren t) ts
  | n + 1, .id name :: .lp :: ts =>
    (parseArgs n ts).bind fun args ts =>
      (expectTok .rp "expected ) after arguments" ts).bind fun _ ts => overClause name args ts
  | _ + 1, .id name :: ts => .ok (.column name) ts
  | _ + 1, ts => .err ⟨ts.head?, "expected an expression"⟩

/-- The arguments of a call, or the list of an IN: none in front of `)`. -/
def parseArgs : Nat → List ExprTok → Parsed (List ParTree)
  | 0, _ => .out
  | _ + 1, .rp :: ts => .ok [] (.rp :: ts)
  | n + 1, ts => parseArgList n ts

/-- One or more, with commas between. -/
def parseArgList : Nat → List ExprTok → Parsed (List ParTree)
  | 0, _ => .out
  | n + 1, ts => (parseExpr n 0 ts).bind fun t ts => moreArgs n t ts

/-- `while (accept(p, TK_COMMA))`. -/
def moreArgs : Nat → ParTree → List ExprTok → Parsed (List ParTree)
  | 0, _, _ => .out
  | n + 1, t, .comma :: ts => (parseArgList n ts).bind fun args ts => .ok (t :: args) ts
  | _ + 1, t, ts => .ok [t] ts

/-- `parse_unary`. -/
def parseUnary : Nat → List ExprTok → Parsed ParTree
  | 0, _ => .out
  | n + 1, .bin .minus :: ts => (parseUnary n ts).bind fun t ts => .ok (.unary .minus t) ts
  | n + 1, .bin .plus :: ts => (parseUnary n ts).bind fun t ts => .ok (.unary .plus t) ts
  | n + 1, .bitNot :: ts => (parseUnary n ts).bind fun t ts => .ok (.unary .bitNot t) ts
  | n + 1, .not :: ts => (parseExpr n 3 ts).bind fun t ts => .ok (.unary .not t) ts
  | n + 1, ts => parsePrimary n ts

/-- `parse_expr`. -/
def parseExpr : Nat → Nat → List ExprTok → Parsed ParTree
  | 0, _, _ => .out
  | n + 1, minprec, ts => (parseUnary n ts).bind fun left ts => exprLoop n minprec left ts

/-- Its loop. A NOT that was taken is gone also where the loop ends. -/
def exprLoop : Nat → Nat → ParTree → List ExprTok → Parsed ParTree
  | 0, _, _, _ => .out
  | n + 1, minprec, left, ts =>
    match nextOp minprec ts with
    | none => .ok left (takeNot ts).2
    | some (negated, op, ts) =>
      (parseOperand n op negated left ts).bind fun left ts => exprLoop n minprec left ts

/-- The right side of an operator. -/
def parseOperand : Nat → LoopOp → Bool → ParTree → List ExprTok → Parsed ParTree
  | 0, _, _, _, _ => .out
  | n + 1, .between, negated, left, ts =>
    (parseExpr n 5 ts).bind fun lo ts =>
      (expectTok (.bin .and) "expected AND in BETWEEN" ts).bind fun _ ts =>
        (parseExpr n 5 ts).bind fun hi ts => .ok (.between negated left lo hi) ts
  | n + 1, .inList, negated, left, ts =>
    (expectTok .lp "expected ( after IN" ts).bind fun _ ts =>
      (parseArgs n ts).bind fun args ts =>
        (expectTok .rp "expected ) after IN list" ts).bind fun _ ts => .ok (.inList negated left args) ts
  | n + 1, .is, _, left, ts =>
    (parseUnary n (acceptNot ts).2).bind fun r ts' => .ok (.is (acceptNot ts).1 left r) ts'
  | n + 1, .like glob, negated, left, ts =>
    (parseExpr n 5 ts).bind fun r ts => .ok (.like glob negated left r) ts
  | n + 1, .bin op, _, left, ts =>
    (parseExpr n (opPrec op + 1) ts).bind fun r ts => .ok (.binary op left r) ts

end

/-- Steps that suffice for some tokens. -/
def enoughSteps (ts : List ExprTok) : Nat := 4 * ts.length + 4

/-- `tdb_parse_expression`, with the parentheses. -/
def parseTree (ts : List ExprTok) : Parsed ParTree :=
  (parseExpr (enoughSteps ts) 0 ts).bind fun t rest =>
    match rest with
    | [] => .ok t []
    | tok :: _ => .err ⟨some tok, "trailing tokens in expression"⟩

/-- `tdb_parse_expression`. -/
def tdbParseExpression (ts : List ExprTok) : Parsed Expr :=
  (parseTree ts).bind fun t rest => .ok t.strip rest

end Tdb.Sql
