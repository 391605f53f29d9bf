import PagedTable.Proofs.Node.Header
import PagedTable.Proofs.Node.Within
import PagedTable.Proofs.Pager.Safe
import PagedTable.Tree.Insert
import PagedTable.Tree.Outline
import PagedTable.Tree.Validate

/-!
# No operation of the tree breaks a promise

Whatever bytes the pages hold, no operation asks a page for what is not there. An operation takes
nothing from a page that has not been loaded as a node, with one exception: the root is copied
without being loaded again when it is split. So an insert relies on the root's page to count no more
keys than a page has room for (`Pager.Fits`), which everything that an insert writes keeps up.

* `search_safe`, `validate_safe`, …: operations that load nodes only.
* `insert_safe`: inserts.
-/

namespace PagedTable

open PagedTable.Action

namespace Tree

open Pager

variable {T : Tree}

/-! ## Searching -/

/-- A descent that comes to an end ends in a leaf, at a cell or behind the last one. -/
theorem descend_safe (m : View) (key : Key) (fuel : Nat) (id : PageId) :
    Safe (Shows m) (descend key fuel id) fun pos => (m.node? id).isSome ∧
      ∃ p, m.node? pos.page = some (.leaf, p) ∧ pos.index ≤ p.count ∧
        (pos.found = true → pos.index < p.count) := by
  induction fuel generalizing id with
  | zero => exact .endless
  | succ fuel ih =>
    refine (node_safe m id).bind fun ⟨kind, p⟩ hn => ?_
    have hsome : (m.node? id).isSome := by
      rw [hn]
      rfl
    cases kind with
    | leaf =>
      refine (Safe.need (Page.find?_within (View.count_le hn) key)).bind fun ⟨i, found⟩ h => ?_
      exact .pure ⟨hsome, p, hn, h⟩
    | internal =>
      have hcount := View.count_le hn
      refine (Safe.need (Page.findChild?_within hcount key)).bind fun i hi => ?_
      refine (Safe.given (Page.child?_eq hcount hi)).bind fun c _ => ?_
      exact (ih c).weaken fun pos h => ⟨hsome, h.2⟩

theorem search_safe (m : View) (key : Key) :
    Safe (Shows m) (T.search key) fun pos => (m.node? T.root).isSome ∧
      ∃ p, m.node? pos.page = some (.leaf, p) ∧ pos.index ≤ p.count ∧
        (pos.found = true → pos.index < p.count) := descend_safe m key _ _

theorem get_safe (m : View) (key : Key) : Safe (Shows m) (T.get key) fun _ => True := by
  refine (search_safe m key).bind fun pos ⟨_, p, hn, _, hfound⟩ => .ite (fun hf => ?_) fun _ => ?_
  · refine (node_safe m _).bind fun ⟨kind, q⟩ hq => ?_
    rw [hn] at hq
    cases hq
    have hlt := Nat.lt_of_lt_of_le (hfound hf) (View.count_le hn)
    exact (Safe.given (Page.cell?_eq p hlt)).bind fun _ _ => .pure trivial
  · exact .pure trivial

theorem greatestFrom_safe (m : View) (fuel : Nat) (id : PageId) :
    Safe (Shows m) (greatestFrom fuel id) fun _ => True := by
  induction fuel generalizing id with
  | zero => exact .endless
  | succ fuel ih =>
    refine (node_safe m id).bind fun ⟨kind, p⟩ hn => ?_
    cases kind with
    | leaf =>
      refine .ite (fun _ => .refuse _) fun hne => ?_
      have hle : p.count ≤ leafCapacity := View.count_le hn
      exact .need ⟨_, Page.cellKey?_eq p (by omega), trivial⟩
    | internal => exact ih _

theorem greatest_safe (m : View) (id : PageId) : Safe (Shows m) (greatest id) fun _ => True :=
  greatestFrom_safe m _ id

/-! ## Inserting -/

theorem splitCost_safe (m : View) (fuel : Nat) (id : PageId) (needed : Nat) :
    Safe (Shows m) (T.splitCost fuel id needed) fun _ => True := by
  induction fuel generalizing id needed with
  | zero => exact .endless
  | succ fuel ih =>
    refine (node_safe m id).bind fun _ _ => .ite (fun _ => .pure trivial) fun _ => ?_
    exact (node_safe m _).bind fun _ _ => .ite (fun _ => .pure trivial) fun _ => ih _ _

theorem reserve_safe (m : View) (leaf : PageId) :
    Safe (Shows m) (T.reserve leaf) fun _ => True := by
  refine (splitCost_safe m _ _ _).bind fun _ _ => .state fun _ => ?_
  exact .ite (fun _ => .refuse _) fun _ => .pure trivial

theorem setParent_safe {root : PageId} (parent id : PageId) :
    Safe (Fits root) (setParent parent id) fun _ => True :=
  edit_safe fun p => ⟨_, rfl, fun h => by rwa [Page.count_setParent]⟩

theorem adopt_safe {root : PageId} (id : PageId) {page : Page}
    (h : page.count ≤ internalCapacity) : Safe (Fits root) (adopt id page) fun _ => True := by
  unfold adopt
  split
  · exact .refuse _
  · exact .pure trivial
  · exact (Safe.given (Page.children?_eq h)).bind fun _ _ =>
      .forM fun c _ => setParent_safe id c

theorem count_moved {p : Page} (root : Bool) (parent : PageId) :
    ((p.setRoot root).setParent parent).count = p.count := by
  rw [Page.count_setParent, (Page.sameBody_setRoot p root).count]

/-- The root's page is copied as it is. -/
theorem raiseRoot_safe (right : PageId) : Safe (Fits T.root) (T.raiseRoot right) fun _ => True := by
  have hfetch : Safe (Fits T.root) (fetch T.root) fun p => p.count ≤ internalCapacity :=
    safe_of_shows fun m hm => (fetch_safe m _).weaken fun p ⟨d, hp⟩ => hm ⟨p, d⟩ hp
  unfold raiseRoot
  refine allocate_safe.bind fun left _ => hfetch.bind fun old hold => ?_
  have hmoved : ((old.setRoot false).setParent T.root).count ≤ internalCapacity := by
    rwa [count_moved]
  generalize (old.setRoot false).setParent T.root = moved at hmoved ⊢
  have hcopy : Safe (Fits T.root) (edit left fun _ => some moved) fun _ => True :=
    edit_safe fun _ => ⟨moved, rfl, fun _ => hmoved⟩
  refine hcopy.bind fun _ _ => (adopt_safe left hmoved).bind fun _ _ => ?_
  refine (safe_of_shows fun m _ => greatest_safe m left).bind fun key _ => ?_
  have hcrown : Safe (Fits T.root) (edit T.root fun _ =>
      ((Page.empty .internal).setRoot true).setLinks? [⟨left, key⟩] right) fun _ => True := by
    obtain ⟨q, hq, hcount⟩ := Page.exists_setLinks? ((Page.empty .internal).setRoot true)
      [⟨left, key⟩] right (show 1 ≤ internalCapacity by decide)
    exact edit_safe fun _ => ⟨q, hq, fun _ => hcount⟩
  exact hcrown.bind fun _ _ => edit_safe fun p => ⟨_, rfl, fun h => by rwa [count_moved]⟩

theorem splitInternal_safe {root : PageId} (id parent : PageId) {keys : List Key}
    {children : List PageId} (hlen : keys.length + 1 = children.length)
    (htwo : 2 ≤ children.length) (hcap : children.length ≤ internalCapacity + 2) :
    Safe (Fits root) (splitInternal id parent keys children) fun _ => True := by
  have hroom : internalCapacity = 510 := rfl
  refine (Safe.require ⟨hlen, htwo⟩).bind fun _ _ => allocate_safe.bind fun new _ => ?_
  refine (edit_safe fun _ => ?_).bind fun _ _ => (edit_safe fun p => ?_).bind fun _ _ => ?_
  · obtain ⟨q, hq, hcount⟩ := Page.exists_setLinks? ((Page.empty .internal).setParent parent)
      (List.zipWith Link.mk (children.drop ((children.length + 1) / 2)).dropLast
        (keys.drop ((children.length + 1) / 2)))
      ((children.drop ((children.length + 1) / 2)).getLastD id) (by
        rw [List.length_zipWith, List.length_dropLast, List.length_drop]
        omega)
    exact ⟨q, hq, fun _ => hcount⟩
  · obtain ⟨q, hq, hcount⟩ := Page.exists_setLinks? p
      (List.zipWith Link.mk (children.take ((children.length + 1) / 2)).dropLast keys)
      ((children.take ((children.length + 1) / 2)).getLastD id) (by
        rw [List.length_zipWith, List.length_dropLast, List.length_take]
        omega)
    exact ⟨q, hq, fun _ => hcount⟩
  · exact (Safe.forM fun c _ => setParent_safe _ c).bind fun _ _ =>
      (Safe.forM fun c _ => setParent_safe _ c).bind fun _ _ => .pure trivial

/-- A parent that is read as an internal node, whatever it is, takes the new half in or is split. -/
theorem hook_safe (fuel : Nat) (left right : PageId) :
    Safe (Fits T.root) (T.hook fuel left right) fun _ => True := by
  induction fuel generalizing left right with
  | zero => exact .endless
  | succ fuel ih =>
    refine triple_of_view fun m hm => ?_
    have hE := Shows.fits hm
    refine (node_safe m left).seq hE fun ⟨_, page⟩ _ => .ite (fun _ => ?_) fun _ => ?_
    · exact (raiseRoot_safe right).before hE
    refine (greatest_safe m left).seq hE fun key _ => ?_
    -- The parent may be any page that passes for a node. A leaf's bytes are read as links, of which
    -- a page has room for more than a leaf can count.
    refine (node_safe m page.parent).seq hE fun ⟨kind, parent⟩ hn => ?_
    have hcount := View.count_le_internal hn
    refine (Safe.given (Page.separators?_eq hcount)).seq hE fun keys hkeys => ?_
    refine (Safe.given (Page.children?_eq hcount)).seq hE fun children hchildren => ?_
    subst hkeys hchildren
    have hlen : parent.children.length = parent.count + 1 := Page.length_children parent
    have hseps : parent.separators.length = parent.count := Page.length_separators parent
    cases hidx : parent.children.idxOf? left with
    | none => exact .refuse hE
    | some i =>
      have hi : i ≤ parent.count := by
        obtain ⟨hlt, -⟩ := List.idxOf?_eq_some_iff.mp hidx
        omega
      have hkeys : (parent.separators.insertIdx i key).length = parent.count + 1 := by
        rw [List.length_insertIdx_of_le_length (hseps ▸ hi), hseps]
      have hkids : (parent.children.insertIdx (i + 1) right).length = parent.count + 2 := by
        rw [List.length_insertIdx_of_le_length (by omega), hlen]
      refine (Safe.require (hseps ▸ hi)).seq hE fun _ _ => .ite (fun hroom => ?_) fun _ => ?_
      · have hmax : T.config.internalMax ≤ internalCapacity := T.config.internalMax_le
        obtain ⟨⟨d, hd⟩, -⟩ := View.node?_eq_some_iff.mp hn
        refine (edit_triple hm fun f hf => ?_).bind fun _ =>
          setParent_safe page.parent right
        rw [hd] at hf
        cases hf
        obtain ⟨q, hq, hcount'⟩ :=
          Page.exists_insertLink? hi (by omega) ⟨left, key⟩ right
        exact ⟨q, hq, fun _ => hcount'⟩
      · refine Triple.before (P := Fits T.root) ?_ hE
        exact (splitInternal_safe _ _ (by omega) (by omega) (by omega)).bind fun _ _ => ih _ _

/-- The leaf that the search ended on is split. -/
theorem splitLeaf_safe {leaf : PageId} {i : Nat} {p : Page} (hm : m.Fits T.root)
    (hn : m.node? leaf = some (.leaf, p)) (hi : i ≤ p.count) (c : Cell) :
    Triple (Shows m) (T.splitLeaf leaf i c) (fun _ s => True ∧ Fits T.root s) (Fits T.root) := by
  have hE := Shows.fits hm
  have hcount : p.count ≤ leafCapacity := View.count_le hn
  have hcap : leafCapacity = 60 := rfl
  refine (node_safe m leaf).seq hE fun ⟨_, page⟩ hpage => ?_
  rw [hn] at hpage
  cases hpage
  refine (Safe.given (Page.cells?_eq hcount)).seq hE fun cells hcells => ?_
  subst hcells
  have hlen : (p.cells.insertIdx i c).length = p.count + 1 := by
    rw [List.length_insertIdx_of_le_length (by rwa [Page.length_cells]), Page.length_cells]
  refine (Safe.require (by rwa [Page.length_cells])).seq hE fun _ _ => ?_
  refine Triple.before (P := Fits T.root) ?_ hE
  generalize p.cells.insertIdx i c = cells at hlen ⊢
  refine allocate_safe.bind fun new _ => ?_
  refine (edit_safe fun _ => ?_).bind fun _ _ => (edit_safe fun q => ?_).bind fun _ _ =>
    hook_safe _ _ _
  · obtain ⟨q, hq, hcount'⟩ := Page.exists_setCells? ((Page.empty .leaf).setParent p.parent)
      (cells.drop ((cells.length + 1) / 2)) (by rw [List.length_drop]; omega)
    exact ⟨q, hq, fun _ => hcount'⟩
  · obtain ⟨r, hr, hcount'⟩ := Page.exists_setCells? q
      (cells.take ((cells.length + 1) / 2)) (by rw [List.length_take]; omega)
    exact ⟨r, hr, fun _ => hcount'⟩

/-- **An insert breaks no promise.** -/
theorem insert_safe (key : Key) (value : Payload) :
    Safe Sound (T.insert key value) fun _ => True := by
  refine safe_of_view fun m => ?_
  have hE : ∀ s, Shows m s → s.Sound := fun _ h => h.1
  refine (search_safe m key).seq hE fun pos ⟨hroot, p, hn, hi, _⟩ => ?_
  obtain ⟨⟨_, _⟩, hr⟩ := Option.isSome_iff_exists.mp hroot
  have hm : m.Fits T.root := View.fits_of_node? hr
  have hleave : ∀ s, Fits T.root s → s.Sound := fun _ h => h.1
  refine .ite (fun _ => .refuse hE) fun _ => ?_
  refine (node_safe m _).seq hE fun ⟨_, leaf⟩ hleaf => ?_
  rw [hn] at hleaf
  cases hleaf
  refine .ite (fun hroom => ?_) fun _ => ?_
  · have hmax : T.config.leafMax ≤ leafCapacity := T.config.leafMax_le
    obtain ⟨⟨d, hd⟩, -⟩ := View.node?_eq_some_iff.mp hn
    refine (edit_triple hm fun f hf => ?_).after (fun _ s h => ⟨trivial, hleave s h⟩) hleave
    rw [hd] at hf
    cases hf
    obtain ⟨q, hq, hcount⟩ := Page.exists_insertCell? hi (by omega) ⟨key, value⟩
    exact ⟨q, hq, fun _ => hcount⟩
  · refine (reserve_safe m _).seq hE fun _ _ => ?_
    exact (splitLeaf_safe hm hn hi _).after (fun _ s h => ⟨trivial, hleave s h.2⟩) hleave

/-! ## Walking through the whole tree -/

theorem checkKeys_safe {P : Pager → Prop} (id : PageId) (b : Bounds) (prev : Option Key)
    (keys : List Key) : Safe P (checkKeys id b prev keys) fun _ => True := by
  induction keys generalizing prev with
  | nil => exact .pure trivial
  | cons key keys ih =>
    exact .ite (fun _ => .refuse _) fun _ => .ite (fun _ => .refuse _) fun _ => ih _

theorem checkLinks_safe {P : Pager → Prop} {check : PageId → Bounds → Action Pager (Option Key)}
    (hcheck : ∀ child b, Safe P (check child b) fun _ => True) (id : PageId) (b : Bounds) (i : Nat)
    (prev : Option Key) (links : List (Key × PageId)) :
    Safe P (checkLinks check id b i prev links) fun _ => True := by
  induction links generalizing i prev with
  | nil => exact .pure trivial
  | cons link links ih =>
    exact .ite (fun _ => .refuse _) fun _ => (hcheck _ _).bind fun _ _ =>
      .ite (fun _ => .refuse _) fun _ => ih _ _

theorem checkNode_safe (m : View) (fuel : Nat) (parent : Option PageId) (id : PageId)
    (b : Bounds) : Safe (Shows m) (T.checkNode fuel parent id b) fun _ => True := by
  induction fuel generalizing parent id b with
  | zero => exact .endless
  | succ fuel ih =>
    refine (node_safe m id).bind fun ⟨kind, p⟩ hn => ?_
    refine .ite (fun _ => .refuse _) fun _ => .ite (fun _ => .refuse _) fun _ => ?_
    cases kind with
    | leaf =>
      refine .ite (fun _ => .refuse _) fun _ => .ite (fun _ => .refuse _) fun _ => ?_
      exact (Safe.given (Page.cellKeys?_eq (View.count_le hn))).bind fun _ _ =>
        checkKeys_safe _ _ _ _
    | internal =>
      refine .ite (fun _ => .refuse _) fun _ => .ite (fun _ => .refuse _) fun _ => ?_
      refine (Safe.given (Page.separators?_eq (View.count_le hn))).bind fun _ _ => ?_
      refine (Safe.given (Page.children?_eq (View.count_le hn))).bind fun _ _ => ?_
      refine (checkLinks_safe (fun _ _ => ih _ _ _) _ _ _ _ _).bind fun _ _ => ?_
      exact (ih _ _ _).bind fun _ _ => .ite (fun _ => .refuse _) fun _ => .pure trivial

theorem validate_safe (m : View) : Safe (Shows m) T.validate fun _ => True :=
  (checkNode_safe m _ _ _ _).bind fun _ _ => .pure trivial

theorem outlineLinks_safe {P : Pager → Prop}
    {outline : PageId → Action Pager (List OutlineLine)}
    (houtline : ∀ child, Safe P (outline child) fun _ => True) (depth : Nat)
    (links : List (Key × PageId)) :
    Safe P (outlineLinks outline depth links) fun _ => True := by
  induction links with
  | nil => exact .pure trivial
  | cons link links ih =>
    exact (houtline _).bind fun _ _ => ih.bind fun _ _ => .pure trivial

theorem outlineNode_safe (m : View) (fuel depth : Nat) (id : PageId) :
    Safe (Shows m) (outlineNode fuel depth id) fun _ => True := by
  induction fuel generalizing depth id with
  | zero => exact .endless
  | succ fuel ih =>
    refine (node_safe m id).bind fun ⟨kind, p⟩ hn => ?_
    cases kind with
    | leaf =>
      exact (Safe.given (Page.cellKeys?_eq (View.count_le hn))).bind fun _ _ => .pure trivial
    | internal =>
      refine (Safe.given (Page.separators?_eq (View.count_le hn))).bind fun _ _ => ?_
      refine (Safe.given (Page.children?_eq (View.count_le hn))).bind fun _ _ => ?_
      exact (outlineLinks_safe (fun _ => ih _ _) _ _).bind fun _ _ =>
        (ih _ _).bind fun _ _ => .pure trivial

theorem dump_safe (m : View) : Safe (Shows m) T.dump fun _ => True :=
  (outlineNode_safe m _ _ _).bind fun _ _ => .pure trivial

end Tree

end PagedTable
