import PagedTable.Proofs.Tree.Check
import PagedTable.Proofs.Tree.Insert
import PagedTable.Proofs.Tree.Respects

/-!
# Checked trees stay checked

* `establish_run`: a tree that has just been made is an empty leaf.
* `Inserted.rooted`: an insert leaves a whole tree behind, whatever it answers.
* `insert_validates`: the check is an invariant of inserts.
* `inserts_validate`: after any number of inserts a tree still passes the check.
-/

namespace PagedTable

open PagedTable.Action Pager

/-- The page of an empty root. -/
theorem Page.empty_root :
    ((empty .leaf).setRoot true).tag = NodeKind.leaf.tag ∧
      ((empty .leaf).setRoot true).isRoot = true ∧ ((empty .leaf).setRoot true).cells = [] := by
  have htag := tag_empty .leaf
  have hcount : (empty .leaf).count = 0 := count_empty .leaf
  generalize empty .leaf = p at htag hcount ⊢
  refine ⟨by rw [tag_setRoot, htag], by rw [isRoot_setRoot], List.length_eq_zero_iff.mp ?_⟩
  rw [length_cells, (sameBody_setRoot p true).count, hcount]

namespace Tree

variable {T : Tree} {s : Pager} {f : Fill} {t : PageTree} {x : Cell}

/-- **A tree that has just been made** is an empty leaf. -/
theorem establish_run (hs : s.Sound) (hfree : s.count ≤ T.root.index)
    (hlt : T.root.index < maxPages) (f : Fill) :
    ∃ s', T.establish s = (.ok (), s') ∧ s'.Sound ∧ Rooted s'.view T.root f (.leaf T.root []) := by
  obtain ⟨htag, hisRoot, hcells⟩ := Page.empty_root
  unfold establish
  rw [bind_ok (state_apply s), if_pos hfree]
  generalize (Page.empty .leaf).setRoot true = q at htag hisRoot hcells ⊢
  have hv := hs.view_of_count_le hlt hfree
  refine ⟨s.wrote T.root q, edit_run hv rfl, hs.wrote hlt _, rfl, ?_, ?_, by simp⟩
  · refine .leaf_of_written (d := true) ?_ htag ⟨?_, fun hq => ?_⟩ (Nat.zero_le _) hcells
    · rw [view_wrote hv, Function.update_self]
    · rw [hisRoot, decide_eq_true rfl]
    · cases hq
  · rw [PageTree.within_leaf]
    exact ⟨fun h => absurd h (by decide), Nat.zero_le _⟩

/-- **An insert leaves a whole tree** behind, whatever it answers. -/
theorem Inserted.rooted {r : Except Fault Unit × Pager} (h : Rooted s.view T.root f t)
    (hr : T.Inserted f t x s r) : ∃ t', Rooted r.2.view T.root f t' := by
  cases hr with
  | duplicate _ seen => exact ⟨t, by rwa [seen.view]⟩
  | full _ _ _ seen => exact ⟨t, by rwa [seen.view]⟩
  | added _ _ _ _ _ rooted _ => exact ⟨_, rooted⟩

/-- A tree that passes the check passes it after an insert. -/
theorem validate_insert_run (hs : s.Sound) (h : (T.validate s).1 = .ok ()) (x : Cell) :
    ∃ t, T.Inserted T.config.fill t x s (T.insert x.key x.value s) ∧
      (T.validate (T.insert x.key x.value s).2).1 = .ok () := by
  obtain ⟨t, ht⟩ := validate_eq_ok_iff.mp h
  have hr := insert_run T.config.fill_admits hs ht x
  exact ⟨t, hr, validate_eq_ok_iff.mpr (hr.rooted ht)⟩

/-- **After any number of inserts** a tree still passes the check. -/
theorem inserts_validate (xs : List Cell) (hs : s.Sound) (h : (T.validate s).1 = .ok ()) :
    (T.validate (xs.foldl (fun s x => (T.insert x.key x.value s).2) s)).1 = .ok () := by
  induction xs generalizing s with
  | nil => exact h
  | cons x xs ih =>
    obtain ⟨-, -, hx⟩ := validate_insert_run hs h x
    exact ih (insert_keeps Sound.closed x.key x.value s hs) hx

/-- **The check is an invariant of inserts.** A tree that has just been made passes it. Where it
passes, an insert answers that it has been made, that its key is there, or that the table is full,
and then the check passes again. -/
theorem insert_validates (T : Tree) (s : Pager) (hs : Reachable s) :
    (s.count ≤ T.root.index → T.root.index < maxPages →
      (T.establish s).1 = .ok () ∧ Reachable (T.establish s).2 ∧
        (T.validate (T.establish s).2).1 = .ok ()) ∧
    ((T.validate s).1 = .ok () → ∀ key value,
      ((T.insert key value s).1 = .ok () ∨
        (T.insert key value s).1 = .error (.refused (.duplicateKey key)) ∨
        ∃ page, (T.insert key value s).1 = .error (.refused (.pageOutOfBounds page))) ∧
      Reachable (T.insert key value s).2 ∧
      (T.validate (T.insert key value s).2).1 = .ok () ∧
      T.Valid (T.insert key value s).2.view) := by
  constructor
  · intro hfree hlt
    obtain ⟨s', hrun, -, hrooted⟩ := establish_run hs.sound hfree hlt T.config.fill
    have hreach := establish_keeps (T := T) Reachable.closed s hs
    rw [hrun] at hreach ⊢
    exact ⟨rfl, hreach, validate_eq_ok_iff.mpr ⟨_, hrooted⟩⟩
  · intro hvalid key value
    obtain ⟨t, hr, hvalid'⟩ := validate_insert_run hs.sound hvalid ⟨key, value⟩
    obtain ⟨t', ht'⟩ := validate_eq_ok_iff.mp hvalid'
    refine ⟨?_, insert_keeps Reachable.closed key value s hs, hvalid', ht'.valid⟩
    generalize hrun : T.insert key value s = r at hr
    cases hr with
    | duplicate => exact .inr (.inl rfl)
    | full => exact .inr (.inr ⟨_, rfl⟩)
    | added => exact .inl rfl

/-- Keys come in any order on a new table. -/
theorem insert_validates_new :
    let T : Tree := { root := rootPage, config := .full }
    let s := (T.establish (Pager.holding { path := defaultPath, bytes := #[], pages := 0 } 0 #[])).2
    let s' := (T.insert 7 (Vector.replicate _ 1) s).2
    (T.validate s).1 = .ok () ∧ (T.validate s').1 = .ok () ∧
      (T.validate (T.insert 3 (Vector.replicate _ 2) s').2).1 = .ok () := by
  intro T s s'
  obtain ⟨-, hs, hvalid⟩ := (insert_validates T (Pager.holding _ 0 #[])
    (.opened (by rfl : Pager.ofFile defaultPath #[] = .ok _))).1 (by decide) (by decide)
  obtain ⟨-, hs', hvalid', -⟩ := (insert_validates T s hs).2 hvalid 7 (Vector.replicate _ 1)
  obtain ⟨-, -, hvalid'', -⟩ := (insert_validates T s' hs').2 hvalid' 3 (Vector.replicate _ 2)
  exact ⟨hvalid, hvalid', hvalid''⟩

end Tree

end PagedTable
