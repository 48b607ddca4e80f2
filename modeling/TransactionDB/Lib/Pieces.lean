import Mathlib.Data.List.Forall2
import Mathlib.Data.List.Infix

/-!
# Pieces — lists that match a pattern piece by piece

A pattern is a list of items. An item is for one element with a property, or for any list. A list
matches the pattern if it can be cut into consecutive pieces, one for each item, that match the items
in order. The lemmas read a pattern from its first item on, as a matcher does.
-/

namespace Pieces

variable {α : Type*}

inductive Item (α : Type*) where
  | one (ok : α → Bool)
  | any

def Item.Fits : Item α → List α → Prop
  | .one ok, piece => ∃ a, piece = [a] ∧ ok a = true
  | .any, _ => True

/-- The list can be cut into pieces that fit the items. -/
def Matches (items : List (Item α)) (l : List α) : Prop :=
  ∃ pieces : List (List α), pieces.flatten = l ∧ List.Forall₂ Item.Fits items pieces

variable {items : List (Item α)} {ok : α → Bool} {l : List α}

@[simp] theorem matches_nil : Matches [] l ↔ l = [] := by
  constructor
  · rintro ⟨pieces, rfl, hfits⟩
    cases hfits
    rfl
  · rintro rfl
    exact ⟨[], rfl, .nil⟩

theorem matches_cons {item : Item α} :
    Matches (item :: items) l ↔ ∃ piece rest, piece ++ rest = l ∧ item.Fits piece ∧ Matches items rest := by
  constructor
  · rintro ⟨pieces, rfl, hfits⟩
    obtain ⟨piece, pieces, hitem, hitems, rfl⟩ := List.forall₂_cons_left_iff.mp hfits
    exact ⟨piece, pieces.flatten, rfl, hitem, pieces, rfl, hitems⟩
  · rintro ⟨piece, rest, rfl, hitem, pieces, rfl, hitems⟩
    exact ⟨piece :: pieces, rfl, .cons hitem hitems⟩

@[simp] theorem not_matches_one_nil : ¬ Matches (.one ok :: items) [] := by
  rw [matches_cons]
  rintro ⟨piece, rest, happ, ⟨a, rfl, -⟩, -⟩
  cases happ

@[simp] theorem matches_one_cons {a : α} :
    Matches (.one ok :: items) (a :: l) ↔ ok a = true ∧ Matches items l := by
  rw [matches_cons]
  constructor
  · rintro ⟨piece, rest, happ, ⟨b, rfl, hok⟩, hrest⟩
    cases happ
    exact ⟨hok, hrest⟩
  · rintro ⟨hok, hrest⟩
    exact ⟨[a], l, rfl, ⟨a, rfl, hok⟩, hrest⟩

/-- An item for any list leaves some tail to the others. -/
theorem matches_any : Matches (.any :: items) l ↔ ∃ s ∈ l.tails, Matches items s := by
  rw [matches_cons]
  simp only [List.mem_tails]
  constructor
  · rintro ⟨piece, rest, rfl, -, hrest⟩
    exact ⟨rest, List.suffix_append piece rest, hrest⟩
  · rintro ⟨s, ⟨piece, rfl⟩, hs⟩
    exact ⟨piece, s, rfl, trivial, hs⟩

@[simp] theorem matches_any_last : Matches [.any] l :=
  matches_any.mpr ⟨[], by simp, matches_nil.mpr rfl⟩

/-- Two such items in a row are one. -/
@[simp] theorem matches_any_any : Matches (.any :: .any :: items) l ↔ Matches (.any :: items) l := by
  rw [matches_any]
  constructor
  · rintro ⟨s, hs, hany⟩
    obtain ⟨r, hr, hitems⟩ := matches_any.mp hany
    simp only [List.mem_tails] at hs hr
    exact matches_any.mpr ⟨r, (List.mem_tails r l).mpr (hr.trans hs), hitems⟩
  · exact fun h => ⟨l, by simp, h⟩

/-- Before an item for one element the tail is not empty. -/
theorem matches_any_one :
    Matches (.any :: .one ok :: items) l ↔ ∃ s ∈ l.tails, s ≠ [] ∧ Matches (.one ok :: items) s := by
  rw [matches_any]
  refine exists_congr fun s => and_congr_right fun _ => ⟨fun h => ⟨?_, h⟩, And.right⟩
  rintro rfl
  exact not_matches_one_nil h

end Pieces
