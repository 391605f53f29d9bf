import PagedTable.Proofs.PageTree.Crumb

/-!
# Trees after a split

A subtree that was split leaves two halves for one place. `PageTree.graft` is the whole tree with
both: the branch above takes the upper half in beside the lower one, and is split itself if it
overflows. Where the root was split, a new root stands above its halves.

* `cells_graft`: no cell is lost, and their order stays.
* `pages_graft`: the new tree stands on the same pages and as many new ones as are counted.
* `within_graft`: halves are full enough, under every bounds that admit the configuration
  (`Fill.Admits`).
-/

namespace PagedTable

/-- What bounds must allow for when nodes of these capacities are split: the smaller half of what
overflows is full enough. -/
structure Fill.Admits (f : Fill) (c : Config) : Prop where
  leafMax_le : c.leafMax ≤ f.leafHi
  internalMax_le : c.internalMax + 1 ≤ f.kidsHi
  leafLo_le : 2 * f.leafLo ≤ c.leafMax + 1
  kidsLo_le : 2 * f.kidsLo ≤ c.internalMax + 2

theorem Config.fill_admits (c : Config) : c.fill.Admits c := by
  refine ⟨Nat.le_refl _, Nat.le_refl _, ?_, ?_⟩
  · unfold Config.fill Config.leafMin
    dsimp only
    omega
  · have : 2 ≤ c.internalMax := c.two_le_internalMax
    unfold Config.fill Config.internalMin
    dsimp only
    omega

theorem Fill.loose_admits (c : Config) : Fill.loose.Admits c := by
  have h₁ : 2 ≤ c.leafMax := c.two_le_leafMax
  have h₂ : 2 ≤ c.internalMax := c.two_le_internalMax
  refine ⟨c.leafMax_le, Nat.succ_le_succ c.internalMax_le, ?_, ?_⟩
  · unfold Fill.loose
    dsimp only
    omega
  · unfold Fill.loose
    dsimp only
    omega

/-- New pages that hooking in a half takes: one for each branch that overflows, and one if the root
is split. -/
def Crumb.risers (cfg : Config) : List Crumb → Nat
  | [] => 1
  | c :: cs => if c.beside.length < cfg.internalMax then 0 else risers cfg cs + 1

/-- They are no more than the levels above the half, and one for a new root. -/
theorem Crumb.risers_le (cfg : Config) (cs : List Crumb) : risers cfg cs ≤ cs.length + 1 := by
  induction cs with
  | nil => exact Nat.le_refl _
  | cons c cs ih =>
    rw [risers, List.length_cons]
    split <;> omega

/-- The children of the branches that overflow, apart from those that the way goes through. -/
def Crumb.shifted (cfg : Config) : List Crumb → List PageId
  | [] => []
  | c :: cs =>
    if c.beside.length < cfg.internalMax then [] else c.beside.map PageTree.id ++ shifted cfg cs

open Crumb

namespace PageTree

/-- The whole tree with two halves in the place that the crumbs lead to. New pages are numbered from
`fresh` on. -/
def graft (cfg : Config) : Nat → List Crumb → (left right : PageTree) → PageTree
  | fresh, [], left, right => .branch left.id [left.moveTo (.ofIndex fresh), right]
  | fresh, c :: cs, left, right =>
    if c.beside.length < cfg.internalMax then plug cs (c.around [left, right])
    else
      let kids := c.before ++ [left, right] ++ c.after
      let half := (kids.length + 1) / 2
      graft cfg (fresh + 1) cs (.branch c.id (kids.take half))
        (.branch (.ofIndex fresh) (kids.drop half))

variable {cfg : Config} {f : Fill} {cs : List Crumb} {l r : PageTree} {fresh : Nat}

theorem cells_graft (cfg : Config) (fresh : Nat) (cs : List Crumb) (l r : PageTree) :
    (graft cfg fresh cs l r).cells = leftCells cs ++ (l.cells ++ r.cells) ++ rightCells cs := by
  induction cs generalizing fresh l r with
  | nil => simp [graft]
  | cons c cs ih =>
    have hkids : (c.before ++ [l, r] ++ c.after).flatMap cells =
        c.before.flatMap cells ++ (l.cells ++ r.cells) ++ c.after.flatMap cells := by
      simp
    rw [graft, leftCells_cons, rightCells_cons]
    split
    · rw [cells_plug, around, cells_branch, hkids]
      simp only [List.append_assoc]
    · rw [ih, cells_branch, cells_branch, ← List.flatMap_append, List.take_append_drop, hkids]
      simp only [List.append_assoc]

theorem id_graft {t : PageTree} (h : l.id = t.id) :
    (graft cfg fresh cs l r).id = (plug cs t).id := by
  induction cs generalizing fresh l r t with
  | nil => exact h
  | cons c cs ih =>
    rw [graft]
    split
    · exact id_plug rfl
    · exact ih rfl

/-- The halves of `n` things, one more than the most, are no fewer than the least. -/
theorem halves_fit {lo hi n : Nat} (hlo : 2 * lo ≤ n) (hhi : n ≤ hi + 1) (hpos : 1 ≤ hi) :
    (lo ≤ (n + 1) / 2 ∧ (n + 1) / 2 ≤ hi) ∧ lo ≤ n - (n + 1) / 2 ∧ n - (n + 1) / 2 ≤ hi := by
  omega

/-- A branch ends with the same key as its last subtrees. -/
theorem greatest?_drop {kids : List PageTree} {n : Nat} (h : ∀ k ∈ kids, k.cells ≠ [])
    (hn : n < kids.length) (i j : PageId) :
    (branch i (kids.drop n)).greatest? = (branch j kids).greatest? := by
  have hne : (kids.drop n).flatMap keys ≠ [] := by
    intro hnil
    have hmem : kids[n] ∈ kids.drop n := List.mem_drop_iff_getElem.mpr ⟨0, by omega, rfl⟩
    have hkeys := List.flatMap_eq_nil_iff.mp hnil _ hmem
    exact h _ (List.getElem_mem hn) (List.map_eq_nil_iff.mp hkeys)
  have hsplit : kids.flatMap keys = (kids.take n).flatMap keys ++ (kids.drop n).flatMap keys := by
    rw [← List.flatMap_append, List.take_append_drop]
  rw [greatest?, greatest?, keys_branch, keys_branch, hsplit, List.getLast?_append_of_ne_nil _ hne]

/-- The halves of a branch are made of its pages and a new one. -/
theorem pages_halves (kids : List PageTree) (n : Nat) (i j : PageId) :
    ((branch i (kids.take n)).pages ++ (branch j (kids.drop n)).pages).Perm
      (j :: (branch i kids).pages) := by
  refine List.perm_iff_count.mpr fun a => ?_
  have hsplit := congrArg (fun ks => List.count a (List.flatMap pages ks))
    (List.take_append_drop n kids)
  rw [pages_branch, pages_branch, pages_branch]
  simp only [List.flatMap_append, List.count_append, List.count_cons] at hsplit ⊢
  omega

/-- Hooking in a half takes as many new pages as are counted for it, and gives no page up. -/
theorem pages_graft (cfg : Config) (fresh : Nat) (cs : List Crumb) (l r : PageTree) :
    (graft cfg fresh cs l r).pages.Perm (l.pages ++ r.pages ++ Crumb.pages cs ++
      (List.range' fresh (risers cfg cs)).map PageId.ofIndex) := by
  refine List.perm_iff_count.mpr fun a => ?_
  induction cs generalizing fresh l r with
  | nil =>
    rw [graft, risers, pages_branch, List.range'_one, List.map_singleton, Crumb.pages_nil]
    simp only [List.flatMap_cons, List.flatMap_nil, pages_moveTo, pages_eq_cons l,
      List.count_append, List.count_cons, List.count_nil]
    omega
  | cons c cs ih =>
    have haround := (Crumb.pages_around c cs [l, r]).count_eq a
    simp only [List.flatMap_cons, List.flatMap_nil, List.count_append, List.append_nil] at haround
    rw [graft, risers]
    split
    · have hplug := (pages_plug cs (c.around [l, r])).count_eq a
      rw [List.range'_zero, List.map_nil]
      simp only [List.count_append, List.count_nil] at hplug ⊢
      omega
    · have hhalves := (pages_halves (c.before ++ [l, r] ++ c.after)
        (((c.before ++ [l, r] ++ c.after).length + 1) / 2) c.id (.ofIndex fresh)).count_eq a
      rw [← Crumb.around] at hhalves
      rw [List.range'_succ, List.map_cons]
      simp only [ih, List.count_append, List.count_cons] at hhalves ⊢
      omega

theorem length_kids (c : Crumb) (l r : PageTree) :
    (c.before ++ [l, r] ++ c.after).length = c.beside.length + 2 :=
  (length_around c [l, r]).trans (Nat.add_comm 2 _)

theorem forall_within_kids {c : Crumb} (hcs : Crumb.Within f (c :: cs)) (hl : l.Within f false)
    (hr : r.Within f false) : ∀ k ∈ c.before ++ [l, r] ++ c.after, k.Within f false := by
  intro k hk
  simp only [List.mem_append, List.mem_cons, List.not_mem_nil, or_false] at hk
  rcases hk with (hk | rfl | rfl) | hk
  · exact hcs.1.2 k (List.mem_append_left _ hk)
  · exact hl
  · exact hr
  · exact hcs.1.2 k (List.mem_append_right _ hk)

/-- Both halves of a branch that took in one subtree too many are full enough. -/
theorem within_halves {c : Crumb} (ha : f.Admits cfg) (hcs : Crumb.Within f (c :: cs))
    (hl : l.Within f false) (hr : r.Within f false) (hfull : cfg.internalMax ≤ c.beside.length)
    (new : PageId) :
    (branch c.id ((c.before ++ [l, r] ++ c.after).take
      (((c.before ++ [l, r] ++ c.after).length + 1) / 2))).Within f false ∧
    (branch new ((c.before ++ [l, r] ++ c.after).drop
      (((c.before ++ [l, r] ++ c.after).length + 1) / 2))).Within f false := by
  have hmax : 2 ≤ cfg.internalMax := cfg.two_le_internalMax
  have hhi := ha.internalMax_le
  have hlo := ha.kidsLo_le
  have hup := hcs.1.1.2
  have hkids := forall_within_kids hcs hl hr
  rw [length_kids]
  obtain ⟨hlower, hupper⟩ := halves_fit (by omega : 2 * f.kidsLo ≤ c.beside.length + 2)
    (by omega : c.beside.length + 2 ≤ f.kidsHi + 1) (by omega)
  constructor
  · rw [within_branch, List.length_take, length_kids, Nat.min_eq_left (by omega)]
    exact ⟨hlower, fun k hk => hkids k (List.mem_of_mem_take hk)⟩
  · rw [within_branch, List.length_drop, length_kids]
    exact ⟨hupper, fun k hk => hkids k (List.mem_of_mem_drop hk)⟩

theorem within_graft (ha : f.Admits cfg) (hcs : Crumb.Within f cs) (hl : l.Within f false)
    (hr : r.Within f false) : (graft cfg fresh cs l r).Within f true := by
  induction cs generalizing fresh l r with
  | nil =>
    have hmax : 2 ≤ cfg.internalMax := cfg.two_le_internalMax
    have hhi := ha.internalMax_le
    rw [graft, within_branch]
    refine ⟨⟨by simp, by simp; omega⟩, ?_⟩
    simp only [List.forall_mem_cons, List.not_mem_nil, false_imp_iff, implies_true, and_true]
    exact ⟨hl.moveTo _, hr⟩
  | cons c cs ih =>
    rw [graft]
    split
    · have hkids := forall_within_kids hcs hl hr
      have hhi := ha.internalMax_le
      obtain ⟨⟨⟨hlo, -⟩, -⟩, hcs⟩ := hcs
      rw [within_plug, around, within_branch, length_kids]
      exact ⟨⟨⟨by omega, by omega⟩, hkids⟩, hcs⟩
    · obtain ⟨hlower, hupper⟩ :=
        within_halves ha hcs hl hr (by omega) (PageId.ofIndex fresh)
      exact ih hcs.2 hlower hupper

end PageTree

end PagedTable
