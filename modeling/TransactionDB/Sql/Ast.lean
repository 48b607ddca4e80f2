import TransactionDB.Value.SqlType

/-!
# TransactionDB — expressions and queries

The trees of `src/sql/tdb_ast.h` that `parse_expr` and `parse_select` of `src/sql/tdb_parser.c`
build. A node has what its kind uses: the operands of an operator are there, and a LIKE may have an
ESCAPE. The arms of a CASE are one list, as in the source: condition, value, condition, value.
-/

namespace Tdb.Sql

inductive UnaryOp where
  | not
  | minus
  | plus
  | bitNot
  deriving DecidableEq, Repr

inductive CmpOp where
  | eq | ne | lt | le | gt | ge
  deriving DecidableEq, Repr

/-- The operators of `eval_binary` that have two operands and nothing else. -/
inductive BinaryOp where
  | and
  | or
  | cmp (op : CmpOp)
  | concat
  | bitAnd | bitOr | shl | shr
  | plus | minus | star | slash | percent
  deriving DecidableEq, Repr

/-- `tdb_join_kind`. -/
inductive JoinKind where
  | none
  | inner
  | cross
  | left
  | right
  | full
  deriving DecidableEq, Repr

inductive SetOp where
  | union
  | unionAll
  | except
  | intersect
  deriving DecidableEq, Repr

mutual

/-- `tdb_expr`. -/
inductive Expr where
  | literal (v : Value)
  | null
  | column (table : Option Bytes) (name : Bytes)
  /-- A marker, and the slot it has been given (`col_index`). -/
  | param (slot : Option Nat)
  | star
  | unary (op : UnaryOp) (left : Expr)
  | binary (op : BinaryOp) (left right : Expr)
  | is (negated : Bool) (left right : Expr)
  | like (negated : Bool) (left right : Expr) (escape : Option Expr)
  | glob (negated : Bool) (left right : Expr)
  | between (negated : Bool) (left lo hi : Expr)
  | inList (negated : Bool) (left : Expr) (args : List Expr)
  | inQuery (negated : Bool) (left : Expr) (subquery : Select)
  | subquery (q : Select)
  | exists (q : Select)
  | case (base : Option Expr) (args : List Expr) (els : Option Expr)
  | func (name : Bytes) (args : List Expr)
  | agg (name : Bytes) (distinct : Bool) (args : List Expr)
  | window (name : Bytes) (args partition order : List Expr) (desc : List Bool)
  | cast (left : Expr) (type : TypeSpec)

/-- `tdb_src`: an item of FROM. -/
inductive Src where
  | mk (table alias_ : Option Bytes) (subquery : Option Select) (asOf : Option Expr) (join : JoinKind)
      (on : Option Expr) (usingCols : List Bytes) (natural : Bool)

/-- `tdb_cte`. -/
inductive Cte where
  | mk (name : Bytes) (colnames : List Bytes) (select : Select)

/-- `tdb_select`. -/
inductive Select where
  | mk (ctes : List Cte) (recursive distinct : Bool) (cols : List Expr) (aliases : List (Option Bytes))
      (from_ : List Src) (where_ : Option Expr) (group : List Expr) (having : Option Expr)
      (order : List Expr) (desc : List Bool) (limit offset : Option Expr) (setop : Option SetOp)
      (next : Option Select)

end

end Tdb.Sql
