import Mathlib.Tactic

/-!
# SlottedPage — cells of different sizes in a page of fixed size

A page has a header, behind it an array of cell pointers in order, and the cell contents growing
down from its end. A deleted cell leaves a hole; the holes are closed when a cell does not fit
otherwise. A cell needs its own size and two bytes for its pointer.

Modelled are the pointer array, as the list of the cells it points to, and the start of the cell
contents. A pointer that was never set points to the default cell.
-/

namespace SlottedPage

open List

variable {γ : Type*}

structure Page (γ : Type*) where
  /-- The pointer array. It may be longer than its part in use. -/
  slots : List γ
  /-- The number of pointers in use. -/
  ncell : Nat
  /-- Where the cell contents start. -/
  content : Nat
  deriving DecidableEq, Repr

instance : Inhabited (Page γ) := ⟨⟨[], 0, 0⟩⟩

/-- The cells of the page, in order. -/
def Page.cells (p : Page γ) : List γ := p.slots.take p.ncell

/-- The sizes of a page, of its header and of its cells. -/
structure Geometry (γ : Type*) where
  pageSize : Nat
  header : Nat
  size : γ → Nat

variable (g : Geometry γ)

/-- The bytes that cells take, without their pointers. -/
def Geometry.used (cs : List γ) : Nat := (cs.map g.size).sum

/-- The bytes that a page with these cells needs. -/
def Geometry.need (cs : List γ) : Nat := g.header + 2 * cs.length + g.used cs

/-- A page without cells. -/
def empty : Page γ := ⟨[], 0, g.pageSize⟩

/-- Closes the holes between the cell contents. -/
def defrag (p : Page γ) : Page γ := { p with content := g.pageSize - g.used p.cells }

/-- Sets pointer `i` in front of the ones from `i` on. If `i` is past the pointers in use, those in
between stay what they were. -/
def place [Inhabited γ] (p : Page γ) (i : Nat) (c : γ) : Page γ where
  slots :=
    if i ≤ p.ncell then (p.slots.take p.ncell).insertIdx i c ++ p.slots.drop (p.ncell + 1)
    else (p.slots ++ List.replicate (i - p.slots.length) default).take i ++ c :: p.slots.drop (i + 1)
  ncell := p.ncell + 1
  content := p.content - g.size c

/-- Inserts a cell as number `i`, or says that there is no room even without holes. -/
def insertCell [Inhabited γ] (p : Page γ) (i : Nat) (c : γ) : Bool × Page γ :=
  if g.header + 2 * p.ncell + (g.size c + 2) ≤ p.content then (true, place g p i c)
  else
    let p := defrag g p
    if g.header + 2 * p.ncell + (g.size c + 2) ≤ p.content then (true, place g p i c) else (false, p)

/-- Takes cell `i` out of the pointer array; its last pointer stays where it was. -/
def deleteCell (p : Page γ) (i : Nat) : Page γ :=
  { p with
    slots := (p.slots.take p.ncell).eraseIdx i ++ p.slots.drop (p.ncell - 1)
    ncell := p.ncell - 1 }

/-- Inserts the cells as numbers `i`, `i + 1`, … and goes on when one does not fit. -/
def fillFrom [Inhabited γ] : Page γ → Nat → List γ → Page γ
  | p, _, [] => p
  | p, i, c :: cs => fillFrom (insertCell g p i c).2 (i + 1) cs

/-- A page filled with the cells. -/
def fill [Inhabited γ] (cs : List γ) : Page γ := fillFrom g (empty g) 0 cs

/-! ## Valid pages -/

/-- The pointers in use are set, and neither they nor the cells run into the cell contents. -/
structure Valid (p : Page γ) : Prop where
  slots : p.ncell ≤ p.slots.length
  header : g.header + 2 * p.ncell ≤ p.content
  content : p.content + g.used p.cells ≤ g.pageSize

/-- There is room for one more cell. -/
def Room (cs : List γ) (c : γ) : Prop := g.need cs + (g.size c + 2) ≤ g.pageSize

instance (cs : List γ) (c : γ) : Decidable (Room g cs c) := inferInstanceAs (Decidable (_ ≤ _))

variable {g}

@[simp] theorem used_nil : g.used [] = 0 := rfl

@[simp] theorem used_cons (c : γ) (cs : List γ) : g.used (c :: cs) = g.size c + g.used cs := by
  simp [Geometry.used]

@[simp] theorem used_append (cs ds : List γ) : g.used (cs ++ ds) = g.used cs + g.used ds := by
  simp [Geometry.used]

theorem used_perm {cs ds : List γ} (h : cs.Perm ds) : g.used cs = g.used ds :=
  (h.map g.size).sum_eq

/-- Only the sizes of the cells count. -/
theorem used_congr {δ : Type*} {h : Geometry δ} {cs : List γ} {ds : List δ}
    (hsize : cs.map g.size = ds.map h.size) : g.used cs = h.used ds := by
  rw [Geometry.used, Geometry.used, hsize]

theorem Valid.length_cells {p : Page γ} (h : Valid g p) : p.cells.length = p.ncell := by
  rw [Page.cells, length_take, Nat.min_eq_left h.slots]

@[simp] theorem cells_empty : (empty g).cells = [] := rfl

theorem valid_empty (h : g.header ≤ g.pageSize) : Valid g (empty g) :=
  ⟨le_refl _, by simpa [empty] using h, by simp [empty, Page.cells]⟩

@[simp] theorem cells_defrag (p : Page γ) : (defrag g p).cells = p.cells := rfl

/-- Without holes the contents start as late as they can. -/
theorem Valid.defrag {p : Page γ} (h : Valid g p) : Valid g (defrag g p) := by
  have hcontent := h.content
  have hheader := h.header
  refine ⟨h.slots, ?_, ?_⟩
  · show g.header + 2 * p.ncell ≤ g.pageSize - g.used p.cells
    omega
  · show g.pageSize - g.used p.cells + g.used p.cells ≤ g.pageSize
    omega

/-! ## Inserting and deleting -/

section Insert

variable [Inhabited γ] {p : Page γ} {i : Nat} {c : γ}

theorem cells_place (h : p.ncell ≤ p.slots.length) (hi : i ≤ p.ncell) :
    (place g p i c).cells = p.cells.insertIdx i c := by
  have hlen : (p.slots.take p.ncell).length = p.ncell := by
    rw [length_take, Nat.min_eq_left h]
  have hins : ((p.slots.take p.ncell).insertIdx i c).length = p.ncell + 1 := by
    rw [length_insertIdx_of_le_length (by omega), hlen]
  simp only [Page.cells, place, if_pos hi]
  rw [take_append_of_le_length (by omega), take_of_length_le (by omega)]

theorem valid_place (h : Valid g p) (hi : i ≤ p.ncell)
    (hroom : g.header + 2 * p.ncell + (g.size c + 2) ≤ p.content) : Valid g (place g p i c) := by
  have hcells := cells_place (g := g) (c := c) h.slots hi
  have hlen : (place g p i c).cells.length = p.ncell + 1 := by
    rw [hcells, length_insertIdx_of_le_length (by rw [h.length_cells]; exact hi),
      h.length_cells]
  have hcontent := h.content
  refine ⟨?_, ?_, ?_⟩
  · have := length_take_le' (place g p i c).ncell (place g p i c).slots
    rw [Page.cells] at hlen
    show p.ncell + 1 ≤ _
    omega
  · show g.header + 2 * (p.ncell + 1) ≤ p.content - g.size c
    omega
  · have hperm : (place g p i c).cells.Perm (c :: p.cells) := by
      rw [hcells]
      exact perm_insertIdx c p.cells (by rw [h.length_cells]; exact hi)
    rw [used_perm hperm, used_cons]
    show p.content - g.size c + (g.size c + g.used p.cells) ≤ g.pageSize
    omega

/-- A cell that has room is inserted. -/
theorem insertCell_room (h : Valid g p) (hi : i ≤ p.ncell) (hroom : Room g p.cells c) :
    (insertCell g p i c).1 = true ∧ (insertCell g p i c).2.cells = p.cells.insertIdx i c ∧
      Valid g (insertCell g p i c).2 := by
  rw [Room, Geometry.need, h.length_cells] at hroom
  simp only [insertCell]
  split
  · next hc => exact ⟨rfl, cells_place h.slots hi, valid_place h hi hc⟩
  · have hc : g.header + 2 * (defrag g p).ncell + (g.size c + 2) ≤ (defrag g p).content := by
      show g.header + 2 * p.ncell + (g.size c + 2) ≤ g.pageSize - g.used p.cells
      omega
    rw [if_pos hc]
    exact ⟨rfl, cells_place h.defrag.slots hi, valid_place h.defrag hi hc⟩

/-- A cell without room is refused, and the cells stay. -/
theorem insertCell_full (h : Valid g p) (hroom : ¬ Room g p.cells c) :
    insertCell g p i c = (false, defrag g p) := by
  have hcontent := h.content
  rw [Room, Geometry.need, h.length_cells] at hroom
  rw [insertCell, if_neg (by omega)]
  have hc : ¬ g.header + 2 * (defrag g p).ncell + (g.size c + 2) ≤ (defrag g p).content := by
    show ¬ g.header + 2 * p.ncell + (g.size c + 2) ≤ g.pageSize - g.used p.cells
    omega
  simp only [if_neg hc]

theorem ncell_insertCell : (insertCell g p i c).2.ncell
    = if (insertCell g p i c).1 then p.ncell + 1 else p.ncell := by
  simp only [insertCell]
  split
  · rfl
  · split <;> rfl

end Insert

theorem cells_deleteCell {p : Page γ} {i : Nat} (h : p.ncell ≤ p.slots.length) (hi : i < p.ncell) :
    (deleteCell p i).cells = p.cells.eraseIdx i := by
  have hlen : ((p.slots.take p.ncell).eraseIdx i).length = p.ncell - 1 := by
    rw [length_eraseIdx_of_lt (by rw [length_take]; omega), length_take]
    omega
  simp only [Page.cells, deleteCell]
  rw [take_append_of_le_length (by omega), take_of_length_le (by omega)]

theorem valid_deleteCell {p : Page γ} {i : Nat} (h : Valid g p) (hi : i < p.ncell) :
    Valid g (deleteCell p i) := by
  have hcells := cells_deleteCell h.slots hi
  have hheader := h.header
  have hcontent := h.content
  refine ⟨?_, ?_, ?_⟩
  · have hlen : ((p.slots.take p.ncell).eraseIdx i).length = p.ncell - 1 := by
      rw [length_eraseIdx_of_lt (by rw [length_take]; have := h.slots; omega),
        length_take, Nat.min_eq_left h.slots]
    simp only [deleteCell, length_append]
    omega
  · show g.header + 2 * (p.ncell - 1) ≤ p.content
    omega
  · have hused : g.used (p.cells.eraseIdx i) ≤ g.used p.cells :=
      List.Sublist.sum_le_sum ((eraseIdx_sublist p.cells i).map g.size) (by simp)
    rw [hcells]
    show p.content + g.used (p.cells.eraseIdx i) ≤ g.pageSize
    omega

/-! ## Filling a page -/

section Fill

variable [Inhabited γ]

theorem ncell_fillFrom_le (cs : List γ) : ∀ (p : Page γ) (i : Nat),
    (fillFrom g p i cs).ncell ≤ p.ncell + cs.length := by
  induction cs with
  | nil => intro p i; exact le_refl _
  | cons c cs ih =>
    intro p i
    have hstep := ih (insertCell g p i c).2 (i + 1)
    rw [ncell_insertCell] at hstep
    rw [fillFrom, length_cons]
    split at hstep <;> omega

/-- A cell with room goes behind the ones that are there. -/
theorem insertCell_last {p : Page γ} {c : γ} (h : Valid g p) (hroom : Room g p.cells c) :
    (insertCell g p p.ncell c).2.cells = p.cells ++ [c] ∧
      (insertCell g p p.ncell c).2.ncell = p.ncell + 1 ∧ Valid g (insertCell g p p.ncell c).2 := by
  obtain ⟨hok, hcells, hvalid⟩ := insertCell_room h (le_refl _) hroom
  rw [ncell_insertCell, hok, if_pos rfl, hcells]
  refine ⟨?_, rfl, hvalid⟩
  rw [← h.length_cells, insertIdx_length_self]

/-- The cells fit behind the ones that are there: all of them are inserted, in order. -/
theorem fillFrom_fits (cs : List γ) : ∀ (p : Page γ), Valid g p →
    g.need (p.cells ++ cs) ≤ g.pageSize →
    (fillFrom g p p.ncell cs).cells = p.cells ++ cs ∧ Valid g (fillFrom g p p.ncell cs) := by
  induction cs with
  | nil => intro p h _; exact ⟨by simp [fillFrom], h⟩
  | cons c cs ih =>
    intro p h hfit
    have hroom : Room g p.cells c := by
      simp only [Geometry.need, length_append, length_cons, used_append, used_cons] at hfit
      rw [Room, Geometry.need]
      omega
    obtain ⟨hcells, hncell, hvalid⟩ := insertCell_last h hroom
    have hrest := ih _ hvalid (by rw [hcells]; simpa using hfit)
    rw [hncell, hcells] at hrest
    rw [fillFrom]
    exact ⟨by simpa using hrest.1, hrest.2⟩

/-- One of the cells does not fit: a cell is missing at the end. -/
theorem ncell_fillFrom_lt (cs : List γ) : ∀ (p : Page γ), Valid g p →
    ¬ g.need (p.cells ++ cs) ≤ g.pageSize →
    (fillFrom g p p.ncell cs).ncell < p.ncell + cs.length := by
  induction cs with
  | nil =>
    intro p h hfit
    have hheader := h.header
    have hcontent := h.content
    rw [append_nil, Geometry.need, h.length_cells] at hfit
    omega
  | cons c cs ih =>
    intro p h hfit
    rw [fillFrom, length_cons]
    by_cases hroom : Room g p.cells c
    · obtain ⟨hcells, hncell, hvalid⟩ := insertCell_last h hroom
      have hrest := ih _ hvalid (by rw [hcells]; simpa using hfit)
      rw [hncell] at hrest
      omega
    · -- the cell is refused, and the ones behind it cannot make up for it
      rw [insertCell_full h hroom]
      have hle := ncell_fillFrom_le (g := g) cs (defrag g p) (p.ncell + 1)
      show (fillFrom g (defrag g p) (p.ncell + 1) cs).ncell < _
      have hncell : (defrag g p).ncell = p.ncell := rfl
      omega

theorem fill_fits {cs : List γ} (hfit : g.need cs ≤ g.pageSize) :
    (fill g cs).cells = cs ∧ Valid g (fill g cs) := by
  have hempty : Valid g (empty g) := valid_empty (by rw [Geometry.need] at hfit; omega)
  exact fillFrom_fits cs (empty g) hempty hfit

theorem length_cells_fill_lt {cs : List γ} (hheader : g.header ≤ g.pageSize)
    (hfit : ¬ g.need cs ≤ g.pageSize) : (fill g cs).cells.length < cs.length := by
  have h := ncell_fillFrom_lt cs (empty g) (valid_empty hheader) (by simpa using hfit)
  have hlen : (fill g cs).cells.length ≤ (fill g cs).ncell := by
    rw [Page.cells, length_take]
    omega
  refine lt_of_le_of_lt hlen ?_
  simpa [fill, empty] using h

/-- A page holds the cells it was filled with exactly when they fit into it. -/
theorem length_cells_fill_iff {cs : List γ} (hheader : g.header ≤ g.pageSize) :
    (fill g cs).cells.length = cs.length ↔ g.need cs ≤ g.pageSize := by
  refine ⟨fun h => ?_, fun h => by rw [(fill_fits h).1]⟩
  by_contra hfit
  have := length_cells_fill_lt hheader hfit
  omega

theorem length_cells_fill_le (cs : List γ) : (fill g cs).cells.length ≤ cs.length := by
  have h := ncell_fillFrom_le (g := g) cs (empty g) 0
  rw [Page.cells, length_take]
  simp only [fill, empty] at h ⊢
  omega

end Fill

end SlottedPage
