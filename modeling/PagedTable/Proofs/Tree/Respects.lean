import PagedTable.Proofs.Pager.Access
import PagedTable.Tree.Insert
import PagedTable.Tree.Outline
import PagedTable.Tree.Validate

/-!
# What the tree cannot tell apart

The tree knows pagers only through the page count, `Pager.fetch` and `Pager.edit`. A relation
between pagers that these respect (`Pager.Accesses`) is respected by every operation of the tree,
whatever it answers. For operations that write nothing it is enough that the page count and
`Pager.fetch` respect it (`Pager.Reads`).

* `search_respects`, `validate_respects`, …: operations that only read.
* `insert_respects`: inserts.
* `insert_keeps`, `establish_keeps`: what the operations that write keep up.
-/

namespace PagedTable

open PagedTable.Action

namespace Tree

open Pager

variable {R : Pager → Pager → Prop} {P : Pager → Prop} {T : Tree}

theorem establish_respects (hR : Accesses R) : Respects R T.establish :=
  .state (fun s s' h => by rw [hR.count s s' h]) fun _ => .ite (hR.edit _ _) (.pure _)

/-! ## Searching -/

theorem descend_respects (hR : Reads R) (key : Key) (fuel : Nat) (id : PageId) :
    Respects R (descend key fuel id) := by
  induction fuel generalizing id with
  | zero => exact .fail _
  | succ fuel ih =>
    refine .bind (hR.node id) fun ⟨kind, page⟩ => ?_
    cases kind with
    | leaf => exact .bind (.need _) fun _ => .pure _
    | internal => exact .bind (.need _) fun _ => .bind (.need _) fun _ => ih _

theorem search_respects (hR : Reads R) (key : Key) : Respects R (T.search key) :=
  descend_respects hR key _ _

theorem get_respects (hR : Reads R) (key : Key) : Respects R (T.get key) :=
  .bind (search_respects hR key) fun _ =>
    .ite (.bind (hR.node _) fun _ => .bind (.need _) fun _ => .pure _) (.pure _)

theorem greatestFrom_respects (hR : Reads R) (fuel : Nat) (id : PageId) :
    Respects R (greatestFrom fuel id) := by
  induction fuel generalizing id with
  | zero => exact .fail _
  | succ fuel ih =>
    refine .bind (hR.node id) fun ⟨kind, page⟩ => ?_
    cases kind with
    | leaf => exact .ite (.fail _) (.need _)
    | internal => exact ih _

theorem greatest_respects (hR : Reads R) (id : PageId) : Respects R (greatest id) :=
  greatestFrom_respects hR _ id

/-! ## Inserting -/

theorem splitCost_respects (hR : Reads R) (fuel : Nat) (id : PageId) (needed : Nat) :
    Respects R (T.splitCost fuel id needed) := by
  induction fuel generalizing id needed with
  | zero => exact .fail _
  | succ fuel ih =>
    exact .bind (hR.node id) fun _ => .ite (.pure _) <| .bind (hR.node _) fun _ =>
      .ite (.pure _) (ih _ _)

theorem reserve_respects (hR : Reads R) (leaf : PageId) : Respects R (T.reserve leaf) :=
  .bind (splitCost_respects hR _ _ _) fun needed =>
    .state (fun s s' h => by rw [hR.count s s' h]) fun _ => .ite (.fail _) (.pure _)

theorem setParent_respects (hR : Accesses R) (parent id : PageId) :
    Respects R (setParent parent id) := hR.edit _ _

theorem adopt_respects (hR : Accesses R) (id : PageId) (page : Page) :
    Respects R (adopt id page) := by
  unfold adopt
  split
  · exact .fail _
  · exact .pure _
  · exact .bind (.need _) fun _ => .forM fun _ _ => setParent_respects hR id _

theorem raiseRoot_respects (hR : Accesses R) (right : PageId) : Respects R (T.raiseRoot right) :=
  .bind hR.allocate fun _ => .bind (hR.fetch _) fun _ => .bind (hR.edit _ _) fun _ =>
    .bind (adopt_respects hR _ _) fun _ => .bind (greatest_respects hR.toReads _) fun _ =>
      .bind (hR.edit _ _) fun _ => hR.edit _ _

theorem splitInternal_respects (hR : Accesses R) (id parent : PageId) (keys : List Key)
    (children : List PageId) : Respects R (splitInternal id parent keys children) :=
  .bind (.require _) fun _ => .bind hR.allocate fun _ => .bind (hR.edit _ _) fun _ =>
    .bind (hR.edit _ _) fun _ => .bind (.forM fun _ _ => setParent_respects hR _ _) fun _ =>
      .bind (.forM fun _ _ => setParent_respects hR _ _) fun _ => .pure _

theorem hook_respects (hR : Accesses R) (fuel : Nat) (left right : PageId) :
    Respects R (T.hook fuel left right) := by
  induction fuel generalizing left right with
  | zero => exact .fail _
  | succ fuel ih =>
    refine .bind (hR.node left) fun ⟨_, page⟩ => .ite (raiseRoot_respects hR right) ?_
    refine .bind (greatest_respects hR.toReads _) fun key => .bind (hR.node _) fun ⟨_, parent⟩ => ?_
    refine .bind (.need _) fun keys => .bind (.need _) fun children => ?_
    cases children.idxOf? left with
    | none => exact .fail _
    | some i =>
      refine .bind (.require _) fun _ => .ite ?_ ?_
      · exact .bind (hR.edit _ _) fun _ => setParent_respects hR _ _
      · exact .bind (splitInternal_respects hR _ _ _ _) fun _ => ih _ _

theorem splitLeaf_respects (hR : Accesses R) (leaf : PageId) (i : Nat) (c : Cell) :
    Respects R (T.splitLeaf leaf i c) :=
  .bind (hR.node leaf) fun _ => .bind (.need _) fun _ => .bind (.require _) fun _ =>
    .bind hR.allocate fun _ => .bind (hR.edit _ _) fun _ => .bind (hR.edit _ _) fun _ =>
      hook_respects hR _ _ _

theorem insert_respects (hR : Accesses R) (key : Key) (value : Payload) :
    Respects R (T.insert key value) :=
  .bind (search_respects hR.toReads key) fun _ => .ite (.fail _) <| .bind (hR.node _) fun _ =>
    .ite (hR.edit _ _) <| .bind (reserve_respects hR.toReads _) fun _ => splitLeaf_respects hR _ _ _

/-! ## Walking through the whole tree -/

theorem checkKeys_respects (id : PageId) (b : Bounds) (prev : Option Key) (keys : List Key) :
    Respects R (checkKeys id b prev keys) := by
  induction keys generalizing prev with
  | nil => exact .pure _
  | cons key keys ih => exact .ite (.fail _) (.ite (.fail _) (ih _))

theorem checkLinks_respects {check : PageId → Bounds → Action Pager (Option Key)}
    (hcheck : ∀ child b, Respects R (check child b)) (id : PageId) (b : Bounds) (i : Nat)
    (prev : Option Key) (links : List (Key × PageId)) :
    Respects R (checkLinks check id b i prev links) := by
  induction links generalizing i prev with
  | nil => exact .pure _
  | cons link links ih =>
    exact .ite (.fail _) (.bind (hcheck _ _) fun _ => .ite (.fail _) (ih _ _))

theorem checkNode_respects (hR : Reads R) (fuel : Nat) (parent : Option PageId) (id : PageId)
    (b : Bounds) : Respects R (T.checkNode fuel parent id b) := by
  induction fuel generalizing parent id b with
  | zero => exact .fail _
  | succ fuel ih =>
    refine .bind (hR.node id) fun ⟨kind, page⟩ => .ite (.fail _) (.ite (.fail _) ?_)
    cases kind with
    | leaf =>
      exact .ite (.fail _) (.ite (.fail _) (.bind (.need _) fun _ => checkKeys_respects _ _ _ _))
    | internal =>
      refine .ite (.fail _) (.ite (.fail _) (.bind (.need _) fun _ => .bind (.need _) fun _ => ?_))
      exact .bind (checkLinks_respects (fun _ _ => ih _ _ _) _ _ _ _ _) fun _ =>
        .bind (ih _ _ _) fun _ => .ite (.fail _) (.pure _)

theorem validate_respects (hR : Reads R) : Respects R T.validate :=
  .bind (checkNode_respects hR _ _ _ _) fun _ => .pure _

theorem outlineLinks_respects {outline : PageId → Action Pager (List OutlineLine)}
    (houtline : ∀ child, Respects R (outline child)) (depth : Nat) (links : List (Key × PageId)) :
    Respects R (outlineLinks outline depth links) := by
  induction links with
  | nil => exact .pure _
  | cons link links ih => exact .bind (houtline _) fun _ => .bind ih fun _ => .pure _

theorem outlineNode_respects (hR : Reads R) (fuel depth : Nat) (id : PageId) :
    Respects R (outlineNode fuel depth id) := by
  induction fuel generalizing depth id with
  | zero => exact .fail _
  | succ fuel ih =>
    refine .bind (hR.node id) fun ⟨kind, page⟩ => ?_
    cases kind with
    | leaf => exact .bind (.need _) fun _ => .pure _
    | internal =>
      refine .bind (.need _) fun _ => .bind (.need _) fun _ => ?_
      exact .bind (outlineLinks_respects (fun _ => ih _ _) _ _) fun _ =>
        .bind (ih _ _) fun _ => .pure _

theorem dump_respects (hR : Reads R) : Respects R T.dump :=
  .bind (outlineNode_respects hR _ _ _) fun _ => .pure _

/-! ## What is kept up -/

theorem establish_keeps (hP : Closed P) : Keeps P T.establish :=
  (establish_respects hP.accesses).keeps

theorem insert_keeps (hP : Closed P) (key : Key) (value : Payload) : Keeps P (T.insert key value) :=
  (insert_respects hP.accesses key value).keeps

end Tree

end PagedTable
