import PagedTable.Proofs.PageTree.Level
import PagedTable.Proofs.PageTree.Span
import PagedTable.Proofs.Table.Capacity
import PagedTable.Proofs.Table.Durable

/-!
# The shape of every table

Whatever happens to a file that starts empty, the pages in use are those of one tree, and all leaves
of this tree are equally deep.

* `Lasting`: a property of tables that calls keep up and that does not depend on which pages are
  cached. `FileState.Bears.run`: it holds of every table, however often the file is opened.
* `standing_lasts`: what is shown of trees so. A call leaves the tree or puts a cell into it
  (`Call.Leaves`).
* `pages_spanned`: no page in use is lost or shared, and no other page is reached.
* `leaves_level`: leaves stay equally deep, and an insert moves them down by one step exactly if it
  splits the root (`Balanced`).
-/

namespace PagedTable

namespace Table

open PagedTable.Action Pager

/-- What makes a property `P` of tables last, if only calls with the property `C` are made. -/
structure Lasting (P : Table → Prop) (C : Call → Prop) : Prop where
  intact : ∀ {t : Table}, P t → t.pager.Intact
  new : ∀ path config, ∃ t, ofFile path #[] config = .ok t ∧ P t
  /-- It does not depend on the configuration, nor on which pages are cached. -/
  alike : ∀ {t u : Table} {config}, P t → u.tree = ⟨rootPage, config⟩ → Alike t.pager u.pager → P u
  call : ∀ {t : Table} {call : Call}, C call → P t → P (call.run t).2

namespace FileState

variable {P : Table → Prop} {C : Call → Prop} {path : String} {st : FileState}

/-- `P` holds of the table that is open, and of every table that is opened next. -/
structure Bears (P : Table → Prop) (path : String) (st : FileState) : Prop where
  table : ∀ t, st.table? = some t → P t
  file : ∀ config, ∃ u, ofFile path st.bytes config = .ok u ∧ P u

theorem Bears.new (hP : Lasting P C) (path : String) : Bears P path (.closed #[]) :=
  ⟨(fun t ht => by cases ht), hP.new path⟩

/-- **One event.** -/
theorem Bears.step (hP : Lasting P C) (h : st.Bears P path) (e : Event)
    (he : ∀ call, e = .call call → C call) : (st.step path e).Bears P path := by
  constructor
  case table =>
    intro t ht
    cases e with
    | opens config =>
      obtain ⟨u, hopen, hu⟩ := h.file config
      rw [FileState.step, hopen] at ht
      cases ht
      exact hu
    | call call =>
      cases st with
      | closed bytes => cases ht
      | opened u =>
        cases ht
        exact hP.call (he call rfl) (h.table u rfl)
    | closes => cases st <;> cases ht
    | drops => cases ht
  case file =>
    intro config
    by_cases hsaves : e.saves = true
    · rw [bytes_step_of_saves path st hsaves]
      cases ht : st.table? with
      | none => exact h.file config
      | some t =>
        have hP' := h.table t ht
        obtain ⟨u, hopen, htree, halike⟩ := file_reopened path config (hP.intact hP')
        exact ⟨u, hopen, hP.alike hP' htree halike⟩
    · rw [bytes_step path st (Bool.not_eq_true _ ▸ hsaves)]
      exact h.file config

/-- **All events.** -/
theorem Bears.run (hP : Lasting P C) (h : st.Bears P path) (events : List Event)
    (hevents : ∀ call, .call call ∈ events → C call) : (st.run path events).Bears P path := by
  induction events generalizing st with
  | nil => exact h
  | cons e events ih =>
    rw [run_cons]
    exact ih (h.step hP e fun call heq => hevents call (heq ▸ List.mem_cons_self))
      fun call hmem => hevents call (List.mem_cons_of_mem _ hmem)

end FileState

/-! ## Properties of the tree -/

/-- The tree at the root page, with a property that may depend on the page count. -/
def Standing (Q : Nat → PageTree → Prop) (t : Table) : Prop :=
  t.tree.root = rootPage ∧ ∃ T, Stands .loose t T ∧ Q t.pager.count T

variable {Q : Nat → PageTree → Prop} {C : Call → Prop}

/-- A new table has a leaf without cells. -/
theorem new_standing (hnew : Q 1 (.leaf rootPage [])) (path : String) (config : Config) :
    ∃ t, ofFile path #[] config = .ok t ∧ Standing Q t := by
  obtain ⟨t, hopen, htree, hcount, hstands⟩ := ofFile_stands path config
  exact ⟨t, hopen, congrArg Tree.root htree, _, hstands.loosen, hcount.symm ▸ hnew⟩

/-- **A property of trees lasts** if a new cell keeps it up, and if it does not matter to it how
many pages are in use where a call loads any page. -/
theorem standing_lasts (hnew : Q 1 (.leaf rootPage []))
    (hgrown : ∀ {n : Nat} {T : PageTree} {x : Cell} (cfg : Config) (sp : T.Spot x.key), Q n T →
      n + sp.cost cfg ≤ maxPages → Q (n + sp.cost cfg) (sp.grown cfg n x))
    (hloaded : ∀ {n n' : Nat} {T : PageTree} {id : PageId}, C (.greatest id) → Q n T → Q n' T) :
    Lasting (Standing Q) C where
  intact h := by
    obtain ⟨-, T, hT, -⟩ := h
    exact hT.intact
  new := new_standing hnew
  alike {t u config} h htree halike := by
    obtain ⟨hroot, T, hT, hQ⟩ := h
    have huroot : u.tree.root = rootPage := congrArg Tree.root htree
    refine ⟨huroot, T, ⟨halike.right, Fill.loose_admits _, ?_⟩, halike.count ▸ hQ⟩
    rw [huroot, ← hroot]
    exact hT.rooted.mono fun id _ x hx => halike.node?_eq id ▸ hx
  call {t call} hcall h := by
    obtain ⟨hroot, T, hT, hQ⟩ := h
    have hintact := call.keeps Intact.closed (fun _ => Intact.flush_keeps) hT.intact
    have hleaves := hT.leaves call
    generalize (call.run t).2 = t' at hintact hleaves
    cases hleaves with
    | same => exact ⟨hroot, T, hT, hQ⟩
    | grown g =>
      refine ⟨hroot, _, hT.grown g hintact, ?_⟩
      show Q _ _
      rw [g.count]
      exact hgrown _ g.spot hQ g.room
    | saved alike =>
      refine ⟨hroot, T, ⟨hintact, hT.admits, ?_⟩, alike.count ▸ hQ⟩
      exact hT.rooted.mono fun id _ x hx => alike.node?_eq id ▸ hx
    | loaded rooted => exact ⟨hroot, T, ⟨hintact, hT.admits, rooted⟩, hloaded hcall hQ⟩

/-! ## Pages in use -/

/-- A search for a greatest key may begin at a page that is not in use, and takes it into use
then. -/
theorem occupied_lasts :
    Lasting (Standing PageTree.Occupies) fun call => ∀ id, call ≠ .greatest id :=
  standing_lasts (PageTree.occupies_leaf []) (fun _ sp h hroom => sp.occupies_grown h hroom)
    fun hcall _ => absurd rfl (hcall _)

theorem Standing.spans {t : Table} (h : Standing PageTree.Occupies t) :
    t.pager.view.Spans rootPage t.pageCount := by
  obtain ⟨hroot, T, hT, hQ⟩ := h
  rw [← hroot]
  exact hT.rooted.spans hQ

/-- **No page is lost or shared.** Start with an empty file, and open tables on it, call them, close
them and drop them as you like, but for searches that begin at a page of the caller's choice. Then
child pointers of the table that is open, and of every table that is opened next, lead from the root
to every page in use, each on one way, and to no other page. -/
theorem pages_spanned (path : String) (events : List Event)
    (h : ∀ id, .call (.greatest id) ∉ events) :
    (∀ t, ((FileState.closed #[]).run path events).table? = some t →
      t.pager.view.Spans rootPage t.pageCount) ∧
    ∀ config, ∃ u, ofFile path ((FileState.closed #[]).run path events).bytes config = .ok u ∧
      u.pager.view.Spans rootPage u.pageCount := by
  have hbears := (FileState.Bears.new occupied_lasts path).run occupied_lasts events
    fun call hmem id heq => h id (heq ▸ hmem)
  refine ⟨fun t ht => (hbears.table t ht).spans, fun config => ?_⟩
  obtain ⟨u, hopen, hu⟩ := hbears.file config
  exact ⟨u, hopen, hu.spans⟩

/-- Forty rows on leaves of two cells take twenty-one pages or more. The table is closed and opened
again with the largest nodes. -/
theorem pages_spanned_forty :
    let calls := inserts (numbered (Vector.replicate _ 1) 40)
    let events := .opens { leafMax := 2 } :: calls.map .call ++ [.closes]
    ∃ u, ofFile defaultPath ((FileState.closed #[]).run defaultPath events).bytes .full = .ok u ∧
      21 ≤ u.pageCount ∧ u.pager.view.Spans rootPage u.pageCount := by
  intro calls events
  obtain ⟨t, s, T, hopen, htree, hrun, h, hcells⟩ := ofFile_numbered defaultPath { leafMax := 2 }
    (by decide) (Vector.replicate _ 1) (n := 40) (by decide)
  obtain ⟨u, hu, -, halike⟩ := file_reopened defaultPath .full h.stands.intact
  obtain ⟨u', hu', hspans⟩ :=
    (pages_spanned defaultPath events (by simp [events, calls, inserts])).2 .full
  have hbytes : ((FileState.closed #[]).run defaultPath events).bytes =
      (flush { t with pager := s }).2.file := by
    rw [FileState.run_session hopen calls, hrun]
    rfl
  rw [hbytes] at hu' ⊢
  obtain rfl : u = u' := Except.ok.inj (hu.symm.trans hu')
  refine ⟨u, hu, ?_, hspans⟩
  rw [show u.pageCount = s.count from halike.count.symm]
  by_contra hfew
  have hlen := h.length_cells_le (n := 19) (by decide) (show s.count ≤ 20 by omega)
  rw [hcells.length_eq, show _ = 2 from congrArg (fun T => T.config.leafMax) htree] at hlen
  exact absurd hlen (by decide)

/-! ## Levels -/

/-- All leaves are equally deep, and an insert moves them down by one step exactly if it splits the
root. -/
def Balanced (t : Table) : Prop :=
  ∃ d, t.pager.view.LeavesAt rootPage d ∧ ∀ i : Insertion,
    (View.SplitsAt rootPage t.pageCount t.pager.view (i.run t).2.pager.view ∧
      (i.run t).2.pager.view.LeavesAt rootPage (d + 1)) ∨
    (¬ View.SplitsAt rootPage t.pageCount t.pager.view (i.run t).2.pager.view ∧
      (i.run t).2.pager.view.LeavesAt rootPage d)

theorem leveled_lasts :
    Lasting (Standing fun _ T => ∃ d, T.Leveled d) fun _ => True := by
  refine standing_lasts ⟨0, .leaf⟩ (fun cfg sp ⟨d, h⟩ _ => ?_) fun _ h => h
  by_cases hrises : sp.Rises cfg
  · exact ⟨d + 1, sp.leveled_grown_of_rises _ _ h hrises⟩
  · exact ⟨d, sp.leveled_grown _ _ h hrises⟩

theorem Standing.balanced {t : Table} (h : Standing (fun _ T => ∃ d, T.Leveled d) t) :
    Balanced t := by
  obtain ⟨hroot, T, hT, d, hd⟩ := h
  have hrooted := hT.rooted
  rw [hroot] at hrooted
  have hleaves := hrooted.leavesAt hd
  have hsame := View.not_splitsAt_self hT.sound rootPage
  refine ⟨d, hleaves, fun i => ?_⟩
  rcases hT.insertion_run i with heq | ⟨x, hi⟩
  · rw [heq]
    exact .inr ⟨hsame, hleaves⟩
  · generalize i.run t = r at hi
    cases hi with
    | duplicate => exact .inr ⟨hsame, hleaves⟩
    | full => exact .inr ⟨hsame, hleaves⟩
    | added g =>
      have hgrown := g.rooted
      rw [hroot] at hgrown
      have hiff := hrooted.splitsAt_iff hT.sound hd g.room hgrown
      by_cases hrises : g.spot.Rises t.tree.config
      · exact .inl ⟨hiff.mpr hrises, hgrown.leavesAt (g.spot.leveled_grown_of_rises _ _ hd hrises)⟩
      · exact .inr ⟨hiff.not.mpr hrises, hgrown.leavesAt (g.spot.leveled_grown _ _ hd hrises)⟩

/-- **Leaves stay equally deep.** Start with an empty file, and open tables on it, call them, close
them and drop them as you like. Then all leaves of the table that is open, and of every table that
is opened next, are equally deep, and another insert moves them down by one step if it splits the
root and leaves them where they are if not. -/
theorem leaves_level (path : String) (events : List Event) :
    (∀ t, ((FileState.closed #[]).run path events).table? = some t → Balanced t) ∧
    ∀ config, ∃ u, ofFile path ((FileState.closed #[]).run path events).bytes config = .ok u ∧
      Balanced u := by
  have hbears := (FileState.Bears.new leveled_lasts path).run leveled_lasts events
    fun _ _ => trivial
  refine ⟨fun t ht => (hbears.table t ht).balanced, fun config => ?_⟩
  obtain ⟨u, hopen, hu⟩ := hbears.file config
  exact ⟨u, hopen, hu.balanced⟩

end Table

end PagedTable
