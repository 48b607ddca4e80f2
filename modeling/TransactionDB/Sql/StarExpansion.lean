import TransactionDB.Catalog.Schema
import TransactionDB.Sql.Ast

/-!
# TransactionDB — the columns of a SELECT

The projections of `exec_select_body` (`src/sql/tdb_exec_select.inc`) and of `build_stream_plan`
(`src/sql/tdb_exec_stream.inc`), which replace a star by columns. Both take only the sources with the name
that stands in front of the star, if the star has one.

It never has: `parse_primary` of `src/sql/tdb_parser.c` builds the same star for `t.*` as for `*` and drops
the name. So `t.*` is every column of every source (`star_expansion_iff`).
-/

namespace Tdb.Sql

open List

/-! ## Sources and items -/

/-- What a source reads: a table, or the rows of a subquery with their column names. -/
inductive SourceRows where
  | table (name : Bytes) (cols : List Column)
  | subquery (colnames : List Bytes)

/-- `qsrc`. -/
structure FromSource where
  asName : Option Bytes
  rows : SourceRows

namespace FromSource

def ncol (s : FromSource) : Nat :=
  match s.rows with
  | .table _ cols => cols.length
  | .subquery colnames => colnames.length

/-- The name that a star may ask for. -/
def nm (s : FromSource) : Option Bytes :=
  match s.asName, s.rows with
  | some a, _ => some a
  | none, .table name _ => some name
  | none, .subquery _ => none

/-- The columns that are not hidden, with their places. -/
def visible (s : FromSource) : List (Bytes × Nat) :=
  match s.rows with
  | .table _ cols => cols.zipIdx.filterMap fun c => if c.1.hidden then none else some (c.1.name, c.2)
  | .subquery colnames => colnames.zipIdx

end FromSource

/-- An item of the select list, as it is written. -/
inductive SelItem where
  | star
  | qualified (t : Bytes)
  | expr (e : Expr) (asName : Option Bytes)

/-- An item as the executors get it: the `table` of an `EX_STAR` may be NULL. -/
inductive ProjItem where
  | star (table : Option Bytes)
  | expr (e : Expr) (asName : Option Bytes)

/-- What `parse_primary` builds. Behind `t.` it makes a new star, without the name. -/
def SelItem.parse : SelItem → ProjItem
  | .star => .star none
  | .qualified _ => .star none
  | .expr e a => .expr e a

/-- An output column: a column of the joined row, or an expression; with its name. -/
inductive OutCol where
  | column (index : Nat) (name : Bytes)
  | expr (e : Expr) (name : Bytes)

/-- The sources with the places where their columns start. -/
def placed : Nat → List FromSource → List (Nat × FromSource)
  | _, [] => []
  | base, s :: ss => (base, s) :: placed (base + s.ncol) ss

/-! ## The executors -/

/-- The loop over the columns of a source. -/
def sourceCols (s : Nat × FromSource) : List OutCol := s.2.visible.map fun c => .column (s.1 + c.2) c.1

/-- The loop over the sources for a star. -/
def starCols (srcs : List FromSource) (table : Option Bytes) : List OutCol :=
  (placed 0 srcs).flatMap fun s =>
    if table.any fun t => !s.2.nm.any (sameName · t) then [] else sourceCols s

/-- The name of the column of an expression. -/
def exprName (e : Expr) (a : Option Bytes) : Bytes :=
  match a, e with
  | some a, _ => a
  | none, .column _ name => name
  | none, _ => "column".toUTF8.toList

/-- The loop over the items; `none` if an expression does not resolve. -/
def project (resolve : Expr → Bool) (stars : Option Bytes → List OutCol) : List ProjItem → Option (List OutCol)
  | [] => some []
  | .star table :: items => (project resolve stars items).map (stars table ++ ·)
  | .expr e a :: items =>
    if resolve e then (project resolve stars items).map (.expr e (exprName e a) :: ·) else none

/-- The projection of `exec_select_body`. -/
def selectProject (resolve : Expr → Bool) (srcs : List FromSource) : List ProjItem → Option (List OutCol) :=
  project resolve (starCols srcs)

/-- A source of `build_stream_plan`, which is a table. -/
structure StreamSource where
  asName : Option Bytes
  name : Bytes
  cols : List Column

def StreamSource.toFrom (s : StreamSource) : FromSource := ⟨s.asName, .table s.name s.cols⟩

/-- Its loop over the sources, from the first column of the next one on. -/
def streamCols (table : Option Bytes) : Nat → List StreamSource → List OutCol
  | _, [] => []
  | base, s :: ss =>
    (if table.any fun t => !sameName (s.asName.getD s.name) t then []
      else s.cols.zipIdx.filterMap fun c => if c.1.hidden then none else some (.column (base + c.2) c.1.name)) ++
      streamCols table (base + s.cols.length) ss

/-- The projection of `build_stream_plan`. -/
def streamProject (resolve : Expr → Bool) (srcs : List StreamSource) : List ProjItem → Option (List OutCol) :=
  project resolve fun table => streamCols table 0 srcs

theorem streamCols_eq (table : Option Bytes) (base : Nat) (srcs : List StreamSource) :
    streamCols table base srcs = (placed base (srcs.map StreamSource.toFrom)).flatMap fun s =>
      if table.any fun t => !s.2.nm.any (sameName · t) then [] else sourceCols s := by
  induction srcs generalizing base with
  | nil => rfl
  | cons s ss ih =>
    have hnm : s.toFrom.nm = some (s.asName.getD s.name) := by
      cases h : s.asName <;> simp [FromSource.nm, StreamSource.toFrom, h]
    have hcols : sourceCols (base, s.toFrom) =
        s.cols.zipIdx.filterMap fun c => if c.1.hidden then none else some (.column (base + c.2) c.1.name) := by
      simp only [sourceCols, FromSource.visible, StreamSource.toFrom, map_filterMap]
      refine filterMap_congr fun c _ => ?_
      cases c.1.hidden <;> rfl
    rw [streamCols, ih, map_cons, placed, flatMap_cons, hnm, hcols]
    rfl

/-- The two executors expand alike. -/
theorem streamProject_eq (resolve : Expr → Bool) (srcs : List StreamSource) :
    streamProject resolve srcs = selectProject resolve (srcs.map StreamSource.toFrom) := by
  have hstars : (fun table => streamCols table 0 srcs) = starCols (srcs.map StreamSource.toFrom) :=
    funext fun table => streamCols_eq table 0 srcs
  rw [streamProject, selectProject, hstars]

/-! ## The expansion -/

/-- The columns that an item stands for. -/
def wanted (srcs : List FromSource) : SelItem → List OutCol
  | .star => (placed 0 srcs).flatMap sourceCols
  | .qualified t => ((placed 0 srcs).filter fun s => s.2.nm.any (sameName · t)).flatMap sourceCols
  | .expr e a => [.expr e (exprName e a)]

/-- If the expressions resolve, the output is what the items stand for in order, or an error where a `t.*`
names no source. -/
def Expands (resolve : Expr → Bool) (srcs : List FromSource) (items : List SelItem) (out : Option (List OutCol)) :
    Prop :=
  (∀ e a, .expr e a ∈ items → resolve e = true) →
    out = some (items.flatMap (wanted srcs)) ∨
      out = none ∧ ∃ t, .qualified t ∈ items ∧ ∀ s ∈ srcs, s.nm.any (sameName · t) = false

/-- Every `t.*` is of all the sources that have columns to show. -/
def NamesAll (resolve : Expr → Bool) (srcs : List FromSource) (items : List SelItem) : Prop :=
  (∀ e a, .expr e a ∈ items → resolve e = true) →
    ∀ t, .qualified t ∈ items → ∀ s ∈ srcs, s.visible ≠ [] → s.nm.any (sameName · t) = true

/-- What the executors make of an item. -/
def expanded (srcs : List FromSource) : SelItem → List OutCol
  | .star | .qualified _ => (placed 0 srcs).flatMap sourceCols
  | .expr e a => [.expr e (exprName e a)]

theorem project_parse {resolve : Expr → Bool} {srcs : List FromSource} {items : List SelItem}
    (hres : ∀ e a, .expr e a ∈ items → resolve e = true) :
    selectProject resolve srcs (items.map SelItem.parse) = some (items.flatMap (expanded srcs)) := by
  have hstar : starCols srcs none = (placed 0 srcs).flatMap sourceCols := by simp [starCols]
  induction items with
  | nil => rfl
  | cons item items ih =>
    have ih := ih fun e a h => hres e a (mem_cons_of_mem item h)
    rw [selectProject] at ih ⊢
    cases item with
    | star | qualified t => simp [SelItem.parse, project, ih, hstar, expanded]
    | expr e a => simp [SelItem.parse, project, ih, hres e a mem_cons_self, expanded]

/-- Lists put together of parts that can only be shorter are equal just if the parts are. -/
theorem flatMap_eq_iff {α β : Type} {f g : α → List β} {l : List α}
    (h : ∀ a ∈ l, (g a).length ≤ (f a).length) : l.flatMap f = l.flatMap g ↔ ∀ a ∈ l, f a = g a := by
  induction l with
  | nil => simp
  | cons a l ih =>
    have htail : ∀ a ∈ l, (g a).length ≤ (f a).length := (forall_mem_cons.mp h).2
    have hlen : (l.flatMap g).length ≤ (l.flatMap f).length := by
      rw [length_flatMap, length_flatMap]
      exact sum_le_sum htail
    rw [flatMap_cons, flatMap_cons, forall_mem_cons, ← ih htail]
    constructor
    · intro heq
      have hsum := congrArg List.length heq
      have hhead := h a mem_cons_self
      rw [length_append, length_append] at hsum
      exact append_inj heq (by omega)
    · rintro ⟨hhead, htail⟩
      rw [hhead, htail]

theorem mem_placed {s : FromSource} {srcs : List FromSource} (base : Nat) :
    (∃ b, (b, s) ∈ placed base srcs) ↔ s ∈ srcs := by
  induction srcs generalizing base with
  | nil => simp [placed]
  | cons s' ss ih => simp [placed, exists_or, ih]

theorem qualified_eq_iff (srcs : List FromSource) (t : Bytes) :
    expanded srcs (.qualified t) = wanted srcs (.qualified t) ↔
      ∀ s ∈ srcs, s.visible ≠ [] → s.nm.any (sameName · t) = true := by
  have hfilter : wanted srcs (.qualified t) =
      (placed 0 srcs).flatMap fun s => if s.2.nm.any (sameName · t) then sourceCols s else [] := by
    rw [wanted]
    induction placed 0 srcs with
    | nil => rfl
    | cons s ss ih =>
      rw [flatMap_cons, ← ih, filter_cons]
      split <;> rfl
  rw [expanded, hfilter, flatMap_eq_iff fun s _ => by split <;> simp]
  constructor
  · intro h s hs hvis
    obtain ⟨b, hb⟩ := (mem_placed 0).mpr hs
    by_contra hnm
    have heq := h (b, s) hb
    rw [if_neg hnm, sourceCols, map_eq_nil_iff] at heq
    exact hvis heq
  · rintro h ⟨b, s⟩ hb
    split
    · rfl
    · next hnm =>
      have hvis := not_imp_comm.mp (h s ((mem_placed 0).mp ⟨b, hb⟩)) hnm
      rw [sourceCols, hvis, map_nil]

theorem expands_select_iff (resolve : Expr → Bool) (srcs : List FromSource) (items : List SelItem) :
    Expands resolve srcs items (selectProject resolve srcs (items.map SelItem.parse)) ↔
      NamesAll resolve srcs items := by
  refine forall_congr' fun hres => ?_
  have hle : ∀ item ∈ items, (wanted srcs item).length ≤ (expanded srcs item).length := by
    intro item _
    cases item with
    | qualified t => exact (filter_sublist.flatMap sourceCols).length_le
    | star | expr e a => exact Nat.le_refl _
  rw [project_parse hres, Option.some.injEq, flatMap_eq_iff hle]
  simp only [reduceCtorEq, false_and, or_false]
  constructor
  · intro h t ht
    exact (qualified_eq_iff srcs t).mp (h _ ht)
  · intro h item hitem
    cases item with
    | star => rfl
    | qualified t => exact (qualified_eq_iff srcs t).mpr (h t hitem)
    | expr e a => rfl

/-- In both executors a select list is expanded right just if every `t.*` in it is of all the sources. -/
theorem star_expansion_iff (resolve : Expr → Bool) (items : List SelItem) :
    (∀ srcs, Expands resolve srcs items (selectProject resolve srcs (items.map SelItem.parse)) ↔
      NamesAll resolve srcs items) ∧
    ∀ srcs : List StreamSource,
      Expands resolve (srcs.map StreamSource.toFrom) items (streamProject resolve srcs (items.map SelItem.parse)) ↔
        NamesAll resolve (srcs.map StreamSource.toFrom) items := by
  refine ⟨fun srcs => expands_select_iff resolve srcs items, fun srcs => ?_⟩
  rw [streamProject_eq]
  exact expands_select_iff resolve _ items

/-- Two sources of one column, `a` and `b`. -/
def sourcesAB : List FromSource := [⟨some [97], .subquery [[120]]⟩, ⟨some [98], .subquery [[121]]⟩]

/-- `SELECT a.* FROM (...) a, (...) b` has the column of `b` too. -/
theorem star_expansion_two : ¬ Expands (fun _ => true) sourcesAB [.qualified [97]]
    (selectProject (fun _ => true) sourcesAB ([.qualified [97]].map SelItem.parse)) := by
  rw [expands_select_iff]
  intro h
  have hb := h (fun _ _ _ => rfl) [97] (by simp) ⟨some [98], .subquery [[121]]⟩ (by simp [sourcesAB]) (by decide)
  exact absurd hb (by decide)

end Tdb.Sql
