import PagedTable.Proofs.Pager.Peeked
import PagedTable.Tree.Outline
import PagedTable.Tree.Validate

/-!
# Looking at the tree

The operations of the tree that read go from node to node and end at the first page that is none,
whatever the pages hold and wherever their links lead (`Pager.Peeks`).

* `search_peeks`, `get_peeks`, `greatest_peeks`: one path.
* `validate_peeks`, `dump_peeks`: the whole tree.
-/

namespace PagedTable

open PagedTable.Action Pager

namespace Tree

variable {s : Pager} {T : Tree}

/-- An operation on pages peeks. -/
abbrev Reading {α : Type} (s : Pager) (x : Action Pager α) : Prop := Peeks (fun s => s) s x

theorem descend_peeks (s : Pager) (key : Key) (fuel : Nat) (id : PageId) :
    Reading s (descend key fuel id) := by
  induction fuel generalizing id with
  | zero => exact .fail _
  | succ fuel ih =>
    refine .bind (node_peeks s id) fun ⟨kind, page⟩ => ?_
    cases kind with
    | leaf => exact .bind (.need _) fun _ => .pure _
    | internal => exact .bind (.need _) fun _ => .bind (.need _) fun _ => ih _

theorem search_peeks (s : Pager) (T : Tree) (key : Key) : Reading s (T.search key) :=
  descend_peeks s key _ _

theorem get_peeks (s : Pager) (T : Tree) (key : Key) : Reading s (T.get key) :=
  .bind (search_peeks s T key) fun _ =>
    .ite (.bind (node_peeks s _) fun _ => .bind (.need _) fun _ => .pure _) (.pure _)

theorem greatestFrom_peeks (s : Pager) (fuel : Nat) (id : PageId) :
    Reading s (greatestFrom fuel id) := by
  induction fuel generalizing id with
  | zero => exact .fail _
  | succ fuel ih =>
    refine .bind (node_peeks s id) fun ⟨kind, page⟩ => ?_
    cases kind with
    | leaf => exact .ite (.fail _) (.need _)
    | internal => exact ih _

theorem greatest_peeks (s : Pager) (id : PageId) : Reading s (greatest id) :=
  greatestFrom_peeks s _ id

/-! ## Walking through the whole tree -/

theorem checkKeys_peeks (s : Pager) (id : PageId) (b : Bounds) (prev : Option Key)
    (keys : List Key) : Reading s (checkKeys id b prev keys) := by
  induction keys generalizing prev with
  | nil => exact .pure _
  | cons key keys ih => exact .ite (.fail _) (.ite (.fail _) (ih _))

theorem checkLinks_peeks {check : PageId → Bounds → Action Pager (Option Key)}
    (hcheck : ∀ child b, Reading s (check child b)) (id : PageId) (b : Bounds) (i : Nat)
    (prev : Option Key) (links : List (Key × PageId)) :
    Reading s (checkLinks check id b i prev links) := by
  induction links generalizing i prev with
  | nil => exact .pure _
  | cons link links ih =>
    exact .ite (.fail _) (.bind (hcheck _ _) fun _ => .ite (.fail _) (ih _ _))

theorem checkNode_peeks (s : Pager) (T : Tree) (fuel : Nat) (parent : Option PageId) (id : PageId)
    (b : Bounds) : Reading s (T.checkNode fuel parent id b) := by
  induction fuel generalizing parent id b with
  | zero => exact .fail _
  | succ fuel ih =>
    refine .bind (node_peeks s id) fun ⟨kind, page⟩ => .ite (.fail _) (.ite (.fail _) ?_)
    cases kind with
    | leaf =>
      refine .ite (.fail _) (.ite (.fail _) (.bind (.need _) fun _ => ?_))
      exact checkKeys_peeks s _ _ _ _
    | internal =>
      refine .ite (.fail _) (.ite (.fail _) (.bind (.need _) fun _ => .bind (.need _) fun _ => ?_))
      exact .bind (checkLinks_peeks (fun _ _ => ih _ _ _) _ _ _ _ _) fun _ =>
        .bind (ih _ _ _) fun _ => .ite (.fail _) (.pure _)

theorem validate_peeks (s : Pager) (T : Tree) : Reading s T.validate :=
  .bind (checkNode_peeks s T _ _ _ _) fun _ => .pure _

theorem outlineLinks_peeks {outline : PageId → Action Pager (List OutlineLine)}
    (houtline : ∀ child, Reading s (outline child)) (depth : Nat)
    (links : List (Key × PageId)) : Reading s (outlineLinks outline depth links) := by
  induction links with
  | nil => exact .pure _
  | cons link links ih => exact .bind (houtline _) fun _ => .bind ih fun _ => .pure _

theorem outlineNode_peeks (s : Pager) (fuel depth : Nat) (id : PageId) :
    Reading s (outlineNode fuel depth id) := by
  induction fuel generalizing depth id with
  | zero => exact .fail _
  | succ fuel ih =>
    refine .bind (node_peeks s id) fun ⟨kind, page⟩ => ?_
    cases kind with
    | leaf => exact .bind (.need _) fun _ => .pure _
    | internal =>
      refine .bind (.need _) fun _ => .bind (.need _) fun _ => ?_
      exact .bind (outlineLinks_peeks (fun _ => ih _ _) _ _) fun _ =>
        .bind (ih _ _) fun _ => .pure _

theorem dump_peeks (s : Pager) (T : Tree) : Reading s T.dump :=
  .bind (outlineNode_peeks s _ _ _) fun _ => .pure _

end Tree

end PagedTable
