import PagedTable.Proofs.PageTree.Level
import PagedTable.Proofs.Table.Stands

/-!
# How much a table holds

A table has room for a root above 99 leaves. If internal nodes may have that many children, the root
is never split a second time, so the tree keeps to two levels, and an insert is refused only when 99
leaves are there and the one that covers the key is full. The others are half full then.

* `PageTree.length_cells_leaves`: how many cells leaves have. `PageTree.eq_leaf_of_few`,
  `Rooted.wide`: what the number of cells says of the root.
* `Spot.leveled_grown_of_wide`: the tree keeps to two levels.
* `Spot.crowded`: where no page is left for a split, there are that many cells.
* `Stocked`: what every call keeps up (`Stocked.run`).
* `Stocked.insert_run`: a new key is inserted as long as there are fewer cells.
  `Stocked.insert_first`, `Stocked.inserts_run`: so are lists of new keys.
* `insert_fits`: how many rows can always be inserted, and how many at most.
-/

namespace PagedTable

open Crumb
open PageTree (plug)

variable {m : View} {root : PageId} {f : Fill} {T : PageTree} {ks : List PageTree} {cfg : Config}
  {key : Key} {n d : Nat}

namespace PageTree

/-! ## Leaves below a root -/

/-- The cells of leaves. -/
theorem length_cells_leaves (hl : ∀ k ∈ ks, k.Leveled 0) (hw : ∀ k ∈ ks, k.Within f false) :
    ks.length * f.leafLo ≤ (ks.flatMap cells).length ∧
      (ks.flatMap cells).length ≤ ks.length * f.leafHi := by
  induction ks with
  | nil => simp
  | cons k ks ih =>
    rw [List.forall_mem_cons] at hl hw
    obtain ⟨hlo, hhi⟩ := ih hl.2 hw.2
    have hk := hw.1
    cases hl.1 with
    | leaf =>
      rw [within_leaf] at hk
      have hleaf := hk.1 rfl
      simp only [List.flatMap_cons, cells_leaf, List.length_append, List.length_cons,
        Nat.add_mul, Nat.one_mul]
      omega

/-- A leaf stands on one page. -/
theorem length_pages_leaves (hl : ∀ k ∈ ks, k.Leveled 0) :
    (ks.flatMap pages).length = ks.length := by
  induction ks with
  | nil => rfl
  | cons k ks ih =>
    rw [List.forall_mem_cons] at hl
    rw [List.flatMap_cons, List.length_append, ih hl.2, List.length_cons]
    cases hl.1 with
    | leaf => simp [Nat.add_comm]

/-- **The most cells.** On `n + 1` pages there are `n` leaves below a root. -/
theorem length_cells_le (h : T.Leveled d) (hd : d ≤ 1) (hw : T.Within f true) (hn : 1 ≤ n)
    (hpages : T.pages.length ≤ n + 1) : T.cells.length ≤ n * f.leafHi := by
  cases h with
  | @leaf id cells =>
    rw [within_leaf] at hw
    rw [cells_leaf]
    exact Nat.le_trans hw.2 (Nat.le_mul_of_pos_left _ hn)
  | @branch k id kids hkids =>
    obtain rfl : k = 0 := by omega
    rw [within_branch] at hw
    rw [pages_branch, List.length_cons, length_pages_leaves hkids] at hpages
    rw [cells_branch]
    exact Nat.le_trans (length_cells_leaves hkids hw.2).2
      (Nat.mul_le_mul_right _ (Nat.le_of_succ_le_succ hpages))

/-- A root has two leaves below it that are half full, so a tree of fewer cells is a leaf. -/
theorem eq_leaf_of_few (h : T.Leveled d) (hd : d ≤ 1) (hw : T.Within f true)
    (hfew : T.cells.length < 2 * f.leafLo) : T = .leaf T.id T.cells := by
  cases h with
  | leaf => rw [id_leaf, cells_leaf]
  | @branch k id kids hkids =>
    obtain rfl : k = 0 := by omega
    rw [within_branch] at hw
    rw [cells_branch] at hfew
    have hlo := (length_cells_leaves hkids hw.2).1
    have htwo := Nat.mul_le_mul_right f.leafLo (two_le_kids hw.1.1)
    omega

namespace Spot

/-- A spot in a tree of two levels is on a leaf below the root, if it is not on the root. -/
theorem crumbs_of_level (sp : T.Spot key) (h : T.Leveled d) (hd : d ≤ 1) :
    sp.crumbs = [] ∨ ∃ c, sp.crumbs = [c] ∧ ∀ k ∈ c.beside, k.Leveled 0 := by
  obtain ⟨hlen, hcrumbs⟩ := sp.leveled_crumbs h
  rcases hcs : sp.crumbs with _ | ⟨c, _ | ⟨c', cs⟩⟩
  · exact .inl rfl
  · rw [hcs] at hcrumbs
    exact .inr ⟨c, rfl, hcrumbs.1⟩
  · rw [hcs, List.length_cons, List.length_cons] at hlen
    omega

/-- The pages of a tree of two levels: the root, the leaf of the spot, and the leaves beside it. -/
theorem length_pages (sp : T.Spot key) {c : Crumb} (hcs : sp.crumbs = [c])
    (hc : ∀ k ∈ c.beside, k.Leveled 0) : T.pages.length = c.beside.length + 2 := by
  rw [sp.pages_perm.length_eq, hcs, pages_cons, Crumb.pages_nil, List.append_nil, List.length_cons,
    List.length_cons, length_pages_leaves hc]

/-- **The tree keeps to two levels** if internal nodes may have a child on every page. -/
theorem leveled_grown_of_wide (sp : T.Spot key) (h : T.Leveled d) (hd : d ≤ 1)
    (hwide : maxPages ≤ cfg.internalMax + 2) (hpages : T.pages.length ≤ n)
    (hroom : n + sp.cost cfg ≤ maxPages) (x : Cell) :
    ∃ d', d' ≤ 1 ∧ (sp.grown cfg n x).Leveled d' := by
  by_cases hrises : sp.Rises cfg
  · refine ⟨d + 1, ?_, sp.leveled_grown_of_rises n x h hrises⟩
    have hlen := (sp.leveled_crumbs h).1
    rcases sp.crumbs_of_level h hd with hcs | ⟨c, hcs, hc⟩
    · rw [hlen, hcs]
      exact Nat.le_refl _
    · -- The root would have all pages but one below it, so the table would have no room.
      have hfull : cfg.internalMax ≤ c.beside.length := hrises.2 c (hcs ▸ List.mem_cons_self)
      have hcount := sp.length_pages hcs hc
      rw [sp.cost_of_full hrises.1] at hroom
      omega
  · exact ⟨d, hd, sp.leveled_grown n x h hrises⟩

/-- **Where no page is left for a split**, all other leaves are there, and the one that the split
would be for is full. -/
theorem crowded (sp : T.Spot key) (h : T.Leveled d) (hd : d ≤ 1) (hw : T.Within f true)
    (hwide : maxPages ≤ cfg.internalMax + 2) (hpages : T.pages.length ≤ maxPages)
    (hexcess : maxPages < T.pages.length + sp.cost cfg) :
    (maxPages - 2) * f.leafLo + cfg.leafMax ≤ T.cells.length := by
  have hfull : cfg.leafMax ≤ sp.cells.length := by
    by_contra hroom
    rw [sp.cost_of_room (Nat.lt_of_not_le hroom)] at hexcess
    omega
  rw [sp.cost_of_full hfull] at hexcess
  rcases sp.crumbs_of_level h hd with hcs | ⟨c, hcs, hc⟩
  · -- The root is a leaf, so only one page is taken.
    have hone : T.pages.length = 1 := by rw [sp.pages_perm.length_eq, hcs]; rfl
    have hcost : risers cfg sp.crumbs = 1 := by rw [hcs]; rfl
    rw [hone, hcost] at hexcess
    exact absurd hexcess (by decide)
  · have hcount := sp.length_pages hcs hc
    have hmany : maxPages - 2 ≤ c.beside.length := by
      by_contra hfew
      have hcost : risers cfg sp.crumbs = 0 := by
        rw [hcs, risers, if_pos (by omega)]
      rw [hcost] at hexcess
      omega
    have hbeside : ∀ k ∈ c.beside, k.Within f false := by
      have hcrumbs := (within_plug.mp (sp.plug_eq ▸ hw)).2
      rw [hcs] at hcrumbs
      exact hcrumbs.1.2
    have hleaves := (length_cells_leaves hc hbeside).1
    have hcells : T.cells.length = (c.beside.flatMap PageTree.cells).length + sp.cells.length := by
      conv_lhs => rw [← sp.plug_eq, hcs, cells_plug, cells_leaf]
      simp only [leftCells_cons, leftCells_nil, rightCells_cons, rightCells_nil, beside,
        List.flatMap_append, List.length_append, List.length_nil]
      omega
    have := Nat.mul_le_mul_right f.leafLo hmany
    omega

end Spot

end PageTree

/-- The root has a child for every leaf that the cells fill, if they fill more than one. -/
theorem Rooted.wide (h : Rooted m root f T) (hlevel : T.Leveled d) (hd : d ≤ 1)
    (hmany : f.leafHi < T.cells.length) :
    ∃ p, m.node? root = some (.internal, p) ∧ T.cells.length ≤ (p.count + 1) * f.leafHi := by
  have hw := h.within
  have hheld := h.held
  have hid := h.id_eq
  cases hlevel with
  | leaf =>
    rw [PageTree.within_leaf] at hw
    rw [PageTree.cells_leaf] at hmany
    exact absurd hmany (Nat.not_lt.mpr hw.2)
  | @branch k id kids hkids =>
    obtain rfl : k = 0 := by omega
    rw [PageTree.within_branch] at hw
    cases hheld with
    | @branch _ _ _ p hn _ hc =>
      refine ⟨p, hid ▸ hn, ?_⟩
      rw [PageTree.cells_branch, Page.count_of_children hc]
      exact (PageTree.length_cells_leaves hkids hw.2).2

namespace Table

open PagedTable.Action Pager

variable {t : Table} {lost : Nat}

/-! ## Calls -/

/-- The tree of the table has two levels at most, and `lost` pages that are in use are not in it. -/
structure Stocked (lost : Nat) (t : Table) (T : PageTree) : Prop where
  stands : Stands t.tree.config.fill t T
  level : ∃ d, d ≤ 1 ∧ T.Leveled d
  pages : T.pages.length + lost = t.pager.count

/-- A tree that has grown keeps to two levels. -/
theorem Stocked.grown {x : Cell} {s : Pager} (h : Stocked lost t T)
    (hwide : maxPages ≤ t.tree.config.internalMax + 2) (g : Growth t.tree.config.fill t T x s)
    (hs : s.Intact) :
    Stocked lost { t with pager := s } (g.spot.grown t.tree.config t.pager.count x) := by
  obtain ⟨d, hd, hlevel⟩ := h.level
  have hpages := h.pages
  refine ⟨h.stands.grown g hs, ?_, ?_⟩
  · exact g.spot.leveled_grown_of_wide hlevel hd hwide (by omega) g.room x
  · show _ = s.count
    rw [g.count, g.spot.pages_grown.length_eq, List.length_append, List.length_map,
      List.length_range']
    omega

/-- **A call** keeps to two levels. Only a search for a greatest key may lose pages: it may begin at
any page. -/
theorem Stocked.call (h : Stocked lost t T) (hwide : maxPages ≤ t.tree.config.internalMax + 2)
    (call : Call) :
    (call.run t).2.tree = t.tree ∧
      ∃ lost' T', Stocked lost' (call.run t).2 T' ∧
        ((∀ id, call ≠ .greatest id) → lost' = lost) := by
  have hintact := call.keeps Intact.closed (fun _ => Intact.flush_keeps) h.stands.intact
  have hleaves := h.stands.leaves call
  generalize (call.run t).2 = t' at hintact hleaves
  cases hleaves with
  | same => exact ⟨rfl, lost, T, h, fun _ => rfl⟩
  | grown g => exact ⟨rfl, lost, _, h.grown hwide g hintact, fun _ => rfl⟩
  | saved alike =>
    refine ⟨rfl, lost, T, ⟨⟨hintact, h.stands.admits, ?_⟩, h.level, ?_⟩, fun _ => rfl⟩
    · exact h.stands.rooted.mono fun id _ x hx => alike.node?_eq id ▸ hx
    · exact h.pages.trans alike.count
  | @loaded id s rooted =>
    have hcount : T.pages.length ≤ s.count := PageId.length_le_of_nodup rooted.nodup fun _ hid =>
      rooted.held.index_lt_count hintact.faithful.sound hid
    have htree : Stands t.tree.config.fill { t with pager := s } T :=
      ⟨hintact, h.stands.admits, rooted⟩
    exact ⟨rfl, s.count - T.pages.length, T, ⟨htree, h.level, Nat.add_sub_cancel' hcount⟩,
      fun hcall => absurd rfl (hcall id)⟩

/-- **All calls.** -/
theorem Stocked.run (h : Stocked lost t T) (hwide : maxPages ≤ t.tree.config.internalMax + 2)
    (calls : List Call) :
    (perform calls t).2.tree = t.tree ∧
      ∃ lost' T', Stocked lost' (perform calls t).2 T' ∧
        ((∀ id, .greatest id ∉ calls) → lost' = lost) := by
  induction calls generalizing t T lost with
  | nil => exact ⟨rfl, lost, T, h, fun _ => rfl⟩
  | cons call calls ih =>
    obtain ⟨htree, lost₁, T₁, h₁, hlost₁⟩ := h.call hwide call
    obtain ⟨htree₂, lost₂, T₂, h₂, hlost₂⟩ := ih h₁ (htree.symm ▸ hwide)
    refine ⟨htree₂.trans htree, lost₂, T₂, h₂, fun hcalls => ?_⟩
    rw [hlost₂ fun id hmem => hcalls id (List.mem_cons_of_mem _ hmem),
      hlost₁ fun id heq => hcalls id (heq ▸ List.mem_cons_self)]

/-- A new table has one leaf. -/
theorem ofFile_stocked (path : String) (config : Config) :
    ∃ t, ofFile path #[] config = .ok t ∧ t.tree = ⟨rootPage, config⟩ ∧
      Stocked 0 t (.leaf rootPage []) := by
  obtain ⟨t, hopen, htree, hcount, hstands⟩ := ofFile_stands path config
  refine ⟨t, hopen, htree, ?_, ⟨0, Nat.zero_le _, .leaf⟩, ?_⟩
  · rwa [htree]
  · rw [hcount, PageTree.pages_leaf]
    rfl

/-- The most cells on `n + 1` pages. -/
theorem Stocked.length_cells_le (h : Stocked lost t T) (hn : 1 ≤ n) (hcount : t.pageCount ≤ n + 1) :
    T.cells.length ≤ n * t.tree.config.leafMax := by
  obtain ⟨d, hd, hlevel⟩ := h.level
  have hpages : T.pages.length + lost = t.pageCount := h.pages
  exact PageTree.length_cells_le hlevel hd h.stands.rooted.within hn (by omega)

/-! ## Inserts -/

/-- **An insert of a new key** is not refused as long as there are fewer cells than 98 leaves that
are half full and a full one hold. -/
theorem Stocked.insert_run {x : Cell} (h : Stocked 0 t T)
    (hwide : maxPages ≤ t.tree.config.internalMax + 2)
    (hfew : T.cells.length < (maxPages - 2) * t.tree.config.leafMin + t.tree.config.leafMax)
    (hkey : x.key ∉ T.keys) :
    ∃ s T', t.tree.insert x.key x.value t.pager = (.ok (), s) ∧
      Stocked 0 { t with pager := s } T' ∧ T'.cells.Perm (x :: T.cells) := by
  obtain ⟨d, hd, hlevel⟩ := h.level
  have hr := PagedTable.insert_run h.stands.admits h.stands.sound h.stands.rooted x
  have hintact := Tree.insert_keeps (T := t.tree) Intact.closed x.key x.value _ h.stands.intact
  generalize t.tree.insert _ _ t.pager = r at hr hintact
  cases hr with
  | duplicate mem => exact absurd mem hkey
  | @added s sp notMem room _ count rooted =>
    let g : Growth t.tree.config.fill t T x s := ⟨sp, notMem, room, count, rooted⟩
    exact ⟨s, _, rfl, h.grown hwide g hintact, sp.cells_grown_perm⟩
  | full sp notMem excess =>
    have hpages : T.pages.length = t.pager.count := h.pages
    rw [← hpages] at excess
    have hcrowded := sp.crowded hlevel hd h.stands.rooted.within hwide
      (hpages ▸ h.stands.sound.count_le) excess
    exact absurd hcrowded (Nat.not_le.mpr hfew)

/-- There is room for the cells, and their keys are new. -/
structure Takes (t : Table) (T : PageTree) (xs : List Cell) : Prop where
  wide : maxPages ≤ t.tree.config.internalMax + 2
  few : xs.length + T.cells.length ≤
    (maxPages - 2) * t.tree.config.leafMin + t.tree.config.leafMax
  keys : ((xs ++ T.cells).map Cell.key).Nodup

/-- The first one is inserted, and then there is room for the others. -/
theorem Stocked.insert_first {x : Cell} {xs : List Cell} (h : Stocked 0 t T)
    (hxs : Takes t T (x :: xs)) :
    ∃ s T', t.tree.insert x.key x.value t.pager = (.ok (), s) ∧
      Stocked 0 { t with pager := s } T' ∧ Takes { t with pager := s } T' xs ∧
      (xs ++ T'.cells).Perm (x :: xs ++ T.cells) := by
  obtain ⟨hwide, hfew, hkeys⟩ := hxs
  rw [List.length_cons] at hfew
  have hx : x.key ∉ T.keys := by
    rw [List.cons_append, List.map_cons, List.nodup_cons, List.map_append] at hkeys
    exact fun hmem => hkeys.1 (List.mem_append_right _ hmem)
  obtain ⟨s, T', hrun, h', hcells⟩ := h.insert_run hwide (by omega) hx
  have hperm : (xs ++ T'.cells).Perm (x :: xs ++ T.cells) :=
    (hcells.append_left xs).trans List.perm_middle
  have hlen := hcells.length_eq
  rw [List.length_cons] at hlen
  exact ⟨s, T', hrun, h', ⟨hwide, by dsimp only; omega, (hperm.map Cell.key).nodup_iff.mpr hkeys⟩,
    hperm⟩

/-- The calls that insert the cells. -/
def inserts (xs : List Cell) : List Call := xs.map fun x => .op (.insert x.key x.value)

/-- **Inserts of new keys.** -/
theorem Stocked.inserts_run {xs : List Cell} (h : Stocked 0 t T) (hxs : Takes t T xs) :
    ∃ s T', (perform (inserts xs) t).2 = { t with pager := s } ∧
      Stocked 0 { t with pager := s } T' ∧ T'.cells.Perm (xs ++ T.cells) := by
  induction xs generalizing t T with
  | nil => exact ⟨t.pager, T, rfl, h, .refl _⟩
  | cons x xs ih =>
    obtain ⟨s₁, T₁, hrun₁, h₁, hxs₁, hperm₁⟩ := h.insert_first hxs
    obtain ⟨s₂, T₂, hrun₂, h₂, hperm₂⟩ := ih h₁ hxs₁
    refine ⟨s₂, T₂, ?_, h₂, hperm₂.trans hperm₁⟩
    have hcall : (Op.insert x.key x.value).run t = (.ok (), { t with pager := s₁ }) :=
      onTree_run (x := (·.insert x.key x.value)) hrun₁
    rw [← hrun₂]
    exact congrArg (fun r => (perform (inserts xs) r.2).2) hcall

/-- Cells with one value under the keys from `0` to `n - 1`. -/
def numbered (value : Payload) (n : Nat) : List Cell :=
  (List.range n).map fun k => ⟨.ofNat k, value⟩

@[simp] theorem length_numbered (value : Payload) (n : Nat) : (numbered value n).length = n := by
  rw [numbered, List.length_map, List.length_range]

theorem nodup_numbered (value : Payload) {n : Nat} (h : n ≤ 2 ^ 32) :
    ((numbered value n).map Cell.key).Nodup := by
  rw [numbered, List.map_map]
  refine List.Nodup.map_on (fun a ha b hb heq => ?_) List.nodup_range
  rw [List.mem_range] at ha hb
  have hkeys : (UInt32.ofNat a).toNat = (UInt32.ofNat b).toNat := congrArg UInt32.toNat heq
  rwa [UInt32.toNat_ofNat_of_lt' (Nat.lt_of_lt_of_le ha h),
    UInt32.toNat_ofNat_of_lt' (Nat.lt_of_lt_of_le hb h)] at hkeys

/-- A new table has room for numbered cells. -/
theorem ofFile_takes (path : String) (config : Config) (hwide : 98 ≤ config.internalMax)
    (value : Payload) {n : Nat} (hn : n ≤ 98 * config.leafMin + config.leafMax) :
    ∃ t, ofFile path #[] config = .ok t ∧ t.tree = ⟨rootPage, config⟩ ∧
      Stocked 0 t (.leaf rootPage []) ∧ Takes t (.leaf rootPage []) (numbered value n) := by
  obtain ⟨t, hopen, htree, h⟩ := ofFile_stocked path config
  have hconfig : t.tree.config = config := congrArg Tree.config htree
  have hsmall : n ≤ 2 ^ 32 := by
    have hmax : config.leafMax ≤ 60 := config.leafMax_le
    have hmin : config.leafMin = (config.leafMax + 1) / 2 := rfl
    omega
  refine ⟨t, hopen, htree, h, ?_, ?_, ?_⟩
  · rw [hconfig]
    exact Nat.add_le_add_right hwide 2
  · rw [hconfig, length_numbered, PageTree.cells_leaf]
    exact hn
  · rw [PageTree.cells_leaf, List.append_nil]
    exact nodup_numbered value hsmall

/-- A new table takes numbered cells in. -/
theorem ofFile_numbered (path : String) (config : Config) (hwide : 98 ≤ config.internalMax)
    (value : Payload) {n : Nat} (hn : n ≤ 98 * config.leafMin + config.leafMax) :
    ∃ t s T, ofFile path #[] config = .ok t ∧ t.tree = ⟨rootPage, config⟩ ∧
      (perform (inserts (numbered value n)) t).2 = { t with pager := s } ∧
      Stocked 0 { t with pager := s } T ∧ T.cells.Perm (numbered value n) := by
  obtain ⟨t, hopen, htree, h, htakes⟩ := ofFile_takes path config hwide value hn
  obtain ⟨s, T, hrun, h', hcells⟩ := h.inserts_run htakes
  rw [PageTree.cells_leaf, List.append_nil] at hcells
  exact ⟨t, s, T, hopen, htree, hrun, h', hcells⟩

/-- **What a table has room for.** Open a table on an empty file, let internal nodes have 98 keys or
more, and call it as you like. It never has more rows than 99 full leaves hold. As long as it has
fewer than 98 leaves that are half full and a full one hold, every key that is not there yet can be
inserted, unless greatest keys were searched for: such a search may begin at a page of the caller's
choice and takes it into use then. -/
theorem insert_fits (path : String) (config : Config) (hwide : 98 ≤ config.internalMax)
    (calls : List Call) :
    ∃ t, ofFile path #[] config = .ok t ∧
      ∃ entries, (scan (perform calls t).2).1 = .ok entries ∧
        entries.length ≤ 99 * config.leafMax ∧
        ((∀ id, .greatest id ∉ calls) →
          entries.length < 98 * ((config.leafMax + 1) / 2) + config.leafMax →
          ∀ key value, key ∉ entries.map Prod.fst →
            (insert key value (perform calls t).2).1 = .ok ()) := by
  obtain ⟨t, hopen, htree₀, h₀⟩ := ofFile_stocked path config
  have hconfig : t.tree.config = config := congrArg Tree.config htree₀
  have hwide₀ : maxPages ≤ t.tree.config.internalMax + 2 := by
    rw [hconfig]
    exact Nat.add_le_add_right hwide 2
  obtain ⟨htree, lost, T, h, hlost⟩ := h₀.run hwide₀ calls
  refine ⟨t, hopen, ?_⟩
  generalize (perform calls t).2 = u at htree h
  rw [← htree] at hwide₀ hconfig
  refine ⟨_, congrArg Prod.fst h.stands.scan_run, ?_, fun hcalls hfew key value hkey => ?_⟩
  · rw [List.length_map, ← hconfig]
    exact h.length_cells_le (by decide) h.stands.sound.count_le
  · obtain rfl := hlost hcalls
    rw [List.length_map, ← hconfig] at hfew
    have hnew : key ∉ T.keys := by rwa [List.map_map] at hkey
    obtain ⟨s, _, hrun, -⟩ := h.insert_run (x := ⟨key, value⟩) hwide₀ hfew hnew
    exact congrArg Prod.fst (onTree_run (x := (·.insert key value)) hrun)

example : 98 * ((Config.full.leafMax + 1) / 2) + Config.full.leafMax = 3000 := rfl

/-- Twenty rows on leaves of two cells: leaves have been split, and another row finds its place. -/
theorem insert_fits_twenty :
    let value : Payload := Vector.replicate _ 1
    ∃ t, ofFile defaultPath #[] { leafMax := 2 } = .ok t ∧
      let u := (perform (inserts (numbered value 20)) t).2
      11 ≤ u.pageCount ∧ (insert 20 value u).1 = .ok () ∧
        ∃ entries, (scan (insert 20 value u).2).1 = .ok entries ∧ (20, value) ∈ entries := by
  intro value
  obtain ⟨t, s, T, hopen, htree, hrun, h, hcells⟩ :=
    ofFile_numbered defaultPath { leafMax := 2 } (by decide) value (n := 20) (by decide)
  obtain ⟨t', hopen', entries, hscan, -, hfits⟩ :=
    insert_fits defaultPath { leafMax := 2 } (by decide) (inserts (numbered value 20))
  obtain rfl : t = t' := Except.ok.inj (hopen.symm.trans hopen')
  have hconfig : t.tree.config = { leafMax := 2 } := congrArg Tree.config htree
  refine ⟨t, hopen, ?_⟩
  dsimp only
  rw [hrun] at hscan hfits ⊢
  have hlen : T.cells.length = 20 := hcells.length_eq
  have hnew : 20 ∉ T.keys := fun hmem =>
    absurd ((hcells.map Cell.key).mem_iff.mp hmem) (by decide)
  cases (congrArg Prod.fst h.stands.scan_run).symm.trans hscan
  have hok := hfits (by simp [inserts]) (by rw [List.length_map, hlen]; decide) 20 value
    (by rwa [List.map_map])
  refine ⟨?_, hok, ?_⟩
  · by_contra hfew
    have := h.length_cells_le (n := 9) (by decide) (by omega)
    rw [hlen, show _ = 2 from congrArg Config.leafMax hconfig] at this
    omega
  · obtain ⟨s', T', hrun', h', hcells'⟩ := h.insert_run (x := ⟨20, value⟩)
      (by rw [hconfig]; decide) (by rw [hlen, hconfig]; decide) hnew
    have hinsert : insert 20 value { t with pager := s } = (.ok (), { t with pager := s' }) :=
      onTree_run (x := (·.insert 20 value)) hrun'
    rw [hinsert]
    exact ⟨_, congrArg Prod.fst h'.stands.scan_run,
      List.mem_map.mpr ⟨_, hcells'.mem_iff.mpr List.mem_cons_self, rfl⟩⟩

end Table

end PagedTable
