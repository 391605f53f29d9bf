import PagedTable.Proofs.Pager.Access
import Mathlib.Data.List.MinMax
import Mathlib.Order.Nat

/-!
# A pager is an array of pages

To its callers a pager is an array of as many pages as there can be: first those of the file, then
pages of zero bytes. Which of them are cached, which are dirty and what the file has of them does
not show.

* `Request`: what a pager can be asked for. `serve` makes requests one after the other.
* `Flat`: the array, and how many of its pages are in use.
* `Mirrors`: the pager shows the array. Every request keeps it up (`Mirrors.serve`).
* `Refines`: what holds of a pager after requests. `ofFile_refines`: from every file of whole pages.
-/

namespace PagedTable

namespace Pager

open PagedTable.Action

/-! ## Requests -/

/-- What a pager can be asked for. -/
inductive Request where
  | read (id : PageId)
  /-- A guard for a page, through which the page is changed as often as the caller likes. -/
  | write (id : PageId) (changes : List (Page → Page))
  | allocate
  | flush

/-- What it answers. -/
inductive Reply where
  /-- The page that the guard shows in the end. -/
  | page (p : Page)
  | number (id : PageId)
  | written

/-- Makes requests one after the other, whatever the answers are. -/
def serve {σ : Type} (run : Request → Action σ Reply) :
    List Request → σ → List (Except Fault Reply) × σ
  | [], s => ([], s)
  | r :: requests, s =>
    let (answers, last) := serve run requests (run r s).2
    ((run r s).1 :: answers, last)

namespace Request

/-- Carries out a request. -/
def run : Request → Action Pager Reply
  | read id => return .page (← fetch id)
  | write id changes => do
    let _ ← fetch id
    changes.forM fun change => edit id fun p => some (change p)
    return .page (← fetch id)
  | allocate => return .number (← Pager.allocate)
  | flush => do
    Pager.flush
    return .written

/-- The page that is accessed. -/
def page? : Request → Option PageId
  | read id => some id
  | write id _ => some id
  | _ => none

end Request

/-- The pages that are fetched. There are none beyond the limit. -/
def fetches (requests : List Request) : List PageId :=
  (requests.filterMap Request.page?).filter (·.index < maxPages)

/-! ## The array -/

/-- An array of pages. -/
structure Flat where
  pages : Vector Page maxPages
  /-- Pages in use. -/
  count : Nat

namespace Flat

/-- The `n` pages of a file, and pages of zero bytes behind them. -/
def ofFile (bytes : Array UInt8) (n : Nat) : Flat where
  pages := Vector.ofFn fun i => if i < n then Page.ofBytesAt bytes (i * pageSize) else Page.zero
  count := n

/-- Makes the changes to a page, one after the other. -/
def access (id : PageId) (changes : List (Page → Page)) : Action Flat Reply := fun a =>
  if h : id.index < maxPages then
    let p := changes.foldl (fun p change => change p) a.pages[id.index]
    (.ok (.page p),
      { pages := a.pages.set id.index p, count := max a.count (id.index + 1) })
  else (.error (.refused (.pageOutOfBounds id)), a)

/-- What a request comes to on the array. -/
def run : Request → Action Flat Reply
  | .read id => access id []
  | .write id changes => access id changes
  | .allocate => fun a => (.ok (.number (.ofIndex a.count)), a)
  | .flush => fun a => (.ok .written, a)

end Flat

/-! ## One request -/

/-- The pager shows the pages of the array, and counts as many. -/
structure Mirrors (s : Pager) (a : Flat) : Prop where
  faithful : s.Faithful
  undamaged : s.disk.damaged = []
  count : s.count = a.count
  shown : ∀ id (h : id.index < maxPages), s.shown id = a.pages[id.index]

variable {s : Pager} {a : Flat} {id : PageId}

namespace Mirrors

theorem fetched (h : s.Mirrors a) (hid : id.index < maxPages) :
    (s.fetched id).Mirrors { a with count := max a.count (id.index + 1) } := by
  refine ⟨h.faithful.fetched id, (damaged_closed []).fetch id s h.undamaged, ?_, fun j hj => ?_⟩
  · rw [(h.faithful.fetch_run hid).2, h.count]
  · rw [h.faithful.shown_fetched, h.shown j hj]

theorem wrote (h : s.Mirrors a) (hid : id.index < maxPages) (p : Page) :
    (s.wrote id p).Mirrors
      { pages := a.pages.set id.index p, count := max a.count (id.index + 1) } := by
  have hf := h.fetched hid
  refine ⟨h.faithful.wrote hid p, hf.undamaged, ?_, fun j hj => ?_⟩
  · show max (s.fetched id).count (id.index + 1) = _
    rw [hf.count]
    show max (max a.count (id.index + 1)) (id.index + 1) = max a.count (id.index + 1)
    omega
  · rw [h.faithful.shown_wrote hid, Vector.getElem_set]
    by_cases hji : j = id
    · subst hji
      rw [Function.update_self, if_pos rfl]
    · rw [Function.update_of_ne hji, if_neg fun heq => hji (PageId.index_inj.mp heq.symm)]
      exact h.shown j hj

/-- A fetch shows the page of the array. -/
theorem fetch_run (h : s.Mirrors a) (hid : id.index < maxPages) :
    fetch id s = (.ok a.pages[id.index], s.fetched id) := by
  rw [(h.faithful.fetch_run hid).1, h.shown id hid]

/-- The changes that are made through one guard. -/
theorem changes_run (h : s.Mirrors a) (hid : id.index < maxPages) (hused : id.index < a.count)
    (changes : List (Page → Page)) :
    ∃ s', changes.forM (fun change => edit id fun p => some (change p)) s = (.ok (), s') ∧
      s'.Mirrors { a with
        pages := a.pages.set id.index
          (changes.foldl (fun p change => change p) a.pages[id.index]) } := by
  induction changes generalizing s a with
  | nil =>
    refine ⟨s, rfl, ?_⟩
    rwa [List.foldl_nil, Vector.set_getElem_self]
  | cons change changes ih =>
    have hrun : edit id (fun p => some (change p)) s =
        (.ok (), s.wrote id (change a.pages[id.index])) := by
      rw [edit_cases h.faithful hid, h.shown id hid]
    have hcount : max a.count (id.index + 1) = a.count := by omega
    have hw := h.wrote hid (change a.pages[id.index])
    rw [hcount] at hw
    obtain ⟨s', hrest, hs'⟩ := ih hw hused
    refine ⟨s', (bind_ok hrun).trans hrest, ?_⟩
    rwa [Vector.set_set, Vector.getElem_set_self] at hs'

theorem flush_run (h : s.Mirrors a) :
    ∃ s', flush s = (.ok (), s') ∧ s'.Mirrors a ∧ s'.disk.bytes.size = s.count * pageSize ∧
      (∀ id, Page.ofBytesAt s'.disk.bytes id.offset = s.shown id) ∧ flush s' = (.ok (), s') := by
  obtain ⟨s', hrun, hs', hcount, hshown, hd, hsize, hfile⟩ := h.faithful.flush_run h.undamaged
  have hclean := (flush_settled h.faithful.sound).2 h.undamaged
  rw [hrun] at hclean
  exact ⟨s', hrun, ⟨hs', hd, hcount.trans h.count, hshown ▸ h.shown⟩, hsize, hfile,
    flush_clean hs'.sound hclean⟩

/-- **A request** has the same answer from the pager and from the array. -/
theorem run (h : s.Mirrors a) (r : Request) :
    (r.run s).1 = (Flat.run r a).1 ∧ (r.run s).2.Mirrors (Flat.run r a).2 := by
  cases r with
  | read id =>
    rw [Request.run, Flat.run, Flat.access]
    by_cases hid : id.index < maxPages
    · rw [bind_ok (h.fetch_run hid), dif_pos hid]
      have hsame : a.pages.set id.index a.pages[id.index] = a.pages := Vector.set_getElem_self hid
      refine ⟨rfl, ?_⟩
      dsimp only [List.foldl_nil]
      rw [hsame]
      exact h.fetched hid
    · rw [bind_error (fetch_beyond hid s), dif_neg hid]
      exact ⟨rfl, h⟩
  | write id changes =>
    rw [Request.run, Flat.run, Flat.access]
    by_cases hid : id.index < maxPages
    · obtain ⟨s', hrun, hs'⟩ := (h.fetched hid).changes_run hid
        (show id.index < max a.count (id.index + 1) by omega) changes
      rw [bind_ok (h.fetch_run hid), bind_ok hrun, bind_ok (hs'.fetch_run hid), dif_pos hid]
      have hlast := hs'.fetched hid
      refine ⟨?_, ?_⟩
      · dsimp only
        rw [Vector.getElem_set_self]
        rfl
      · have hcount : max (max a.count (id.index + 1)) (id.index + 1) =
            max a.count (id.index + 1) := by omega
        rw [hcount] at hlast
        exact hlast
    · rw [bind_error (fetch_beyond hid s), dif_neg hid]
      exact ⟨rfl, h⟩
  | allocate =>
    refine ⟨?_, h⟩
    show Except.ok (Reply.number (.ofIndex s.count)) = _
    rw [h.count]
    rfl
  | flush =>
    obtain ⟨s', hrun, hs', -⟩ := h.flush_run
    rw [Request.run, Flat.run]
    rw [bind_ok hrun]
    exact ⟨rfl, hs'⟩

/-- **A run of requests.** -/
theorem serve (h : s.Mirrors a) (requests : List Request) :
    (serve Request.run requests s).1 = (serve Flat.run requests a).1 ∧
      (Pager.serve Request.run requests s).2.Mirrors (Pager.serve Flat.run requests a).2 := by
  induction requests generalizing s a with
  | nil => exact ⟨rfl, h⟩
  | cons r requests ih =>
    obtain ⟨hanswer, hr⟩ := h.run r
    obtain ⟨hanswers, hlast⟩ := ih hr
    exact ⟨congrArg₂ List.cons hanswer hanswers, hlast⟩

end Mirrors

/-! ## Runs from a file -/

/-- Pages count from their first fetch on. -/
theorem Flat.count_run (r : Request) (a : Flat) :
    (Flat.run r a).2.count =
      max a.count (((fetches [r]).map fun id => id.index + 1).foldr max 0) := by
  have haccess : ∀ id changes, (Flat.access id changes a).2.count =
        max a.count
          ((([id].filter (·.index < maxPages)).map fun id => id.index + 1).foldr max 0) := by
    intro id changes
    unfold access
    by_cases hid : id.index < maxPages
    · rw [dif_pos hid, List.filter_singleton, decide_eq_true hid]
      rfl
    · rw [dif_neg hid, List.filter_singleton, decide_eq_false hid]
      exact (Nat.max_zero _).symm
  cases r with
  | read id => exact haccess id []
  | write id changes => exact haccess id changes
  | allocate => exact (Nat.max_zero _).symm
  | flush => exact (Nat.max_zero _).symm

theorem Flat.count_serve (requests : List Request) (a : Flat) :
    (serve Flat.run requests a).2.count =
      max a.count (((fetches requests).map fun id => id.index + 1).foldr max 0) := by
  induction requests generalizing a with
  | nil => exact (Nat.max_zero _).symm
  | cons r requests ih =>
    have hsplit : fetches (r :: requests) = fetches [r] ++ fetches requests := by
      unfold fetches
      rw [← List.filter_append, ← List.filterMap_append]
      rfl
    show (serve Flat.run requests (Flat.run r a).2).2.count = _
    rw [ih, count_run, hsplit, List.map_append, Nat.max_assoc]
    congr 1
    induction (fetches [r]).map fun id => id.index + 1 with
    | nil => exact Nat.zero_max _
    | cons i rest ih => rw [List.foldr_cons, Nat.max_assoc, ih, List.cons_append, List.foldr_cons]

/-- What holds of a pager after requests to the pager of a file of `n` pages, if `a` is what they
leave of the array. -/
structure Refines (n : Nat) (requests : List Request) (s : Pager) (a : Flat) : Prop where
  /-- Within the limit a guard shows the page of the array. -/
  guard : ∀ id (h : id.index < maxPages), (fetch id s).1 = .ok a.pages[id.index]
  /-- Beyond it there is no guard, and nothing is changed. -/
  beyond : ∀ id : PageId, maxPages ≤ id.index → ∀ changes,
    (Request.write id changes).run s = (.error (.refused (.pageOutOfBounds id)), s) ∧
    (Request.read id).run s = (.error (.refused (.pageOutOfBounds id)), s)
  /-- The pages in use are those of the file and those up to the greatest that was fetched. -/
  count : s.count = max n (((fetches requests).map fun id => id.index + 1).foldr max 0)
  /-- A page that is allocated is not in the file and was never fetched. -/
  allocate : ∃ id, allocate s = (.ok id, s) ∧ id ∉ fetches requests ∧ n ≤ id.index ∧
    s.disk.bytes.size ≤ id.offset
  /-- Writing back leaves the pages in use as the file. Done again it writes nothing. -/
  flush : ∃ s', flush s = (.ok (), s') ∧ s'.disk.bytes.size = s.count * pageSize ∧
    (∀ i (h : i < maxPages), i < s.count →
      Page.ofBytesAt s'.disk.bytes (i * pageSize) = a.pages[i]) ∧
    Pager.flush s' = (.ok (), s')

theorem Mirrors.ofFile {bytes : Array UInt8} {n : Nat} (hsize : bytes.size = n * pageSize)
    (hs : s.Faithful) (hd : s.disk.damaged = []) (hcount : s.count = n)
    (hshown : ∀ id, s.shown id = Page.ofBytesAt bytes id.offset) :
    s.Mirrors (.ofFile bytes n) := by
  refine ⟨hs, hd, hcount, fun id hid => ?_⟩
  rw [hshown]
  simp only [Flat.ofFile, Vector.getElem_ofFn]
  split
  · rfl
  · refine Page.ofBytesAt_of_size_le ?_
    rw [hsize]
    exact Nat.mul_le_mul_right _ (by omega)

theorem Mirrors.refines {n : Nat} {requests : List Request} (h : s.Mirrors a)
    (hcount : a.count = max n (((fetches requests).map fun id => id.index + 1).foldr max 0)) :
    Refines n requests s a where
  guard id hid := by rw [h.fetch_run hid]
  beyond id hid changes := by
    have hfetch := fetch_beyond (Nat.not_lt.mpr hid) s
    exact ⟨bind_error hfetch, bind_error hfetch⟩
  count := h.count.trans hcount
  allocate := by
    have hle := h.faithful.sound.count_le
    have hindex : (PageId.ofIndex s.count).index = s.count :=
      PageId.index_ofIndex (Nat.lt_of_le_of_lt hle (by decide))
    refine ⟨.ofIndex s.count, rfl, fun hmem => ?_, ?_, ?_⟩
    · have hlt : s.count + 1 ≤ ((fetches requests).map fun id => id.index + 1).foldr max 0 :=
        List.le_max_of_le (List.mem_map_of_mem hmem) (Nat.le_of_eq (congrArg (· + 1) hindex.symm))
      rw [h.count, hcount] at hlt
      omega
    · rw [hindex, h.count, hcount]
      exact Nat.le_max_left _ _
    · rw [h.faithful.size_eq, PageId.offset, hindex]
      exact Nat.mul_le_mul_right _ h.faithful.sound.pages_le
  flush := by
    obtain ⟨s', hrun, -, hsize, hfile, hagain⟩ := h.flush_run
    refine ⟨s', hrun, hsize, fun i hi hlt => ?_, hagain⟩
    have hindex : (PageId.ofIndex i).index = i := PageId.index_ofIndex (Nat.lt_trans hi (by decide))
    have hpage := hfile (.ofIndex i)
    rw [h.shown _ (hindex.symm ▸ hi), PageId.offset] at hpage
    simpa only [hindex] using hpage

/-- **A pager is an array of pages.** A file of whole pages within the limit is opened, and then all
requests are answered as the array answers them that begins with the file. -/
theorem ofFile_refines (path : String) (bytes : Array UInt8) (n : Nat)
    (hsize : bytes.size = n * pageSize) (hn : n ≤ maxPages) (requests : List Request) :
    ∃ s, ofFile path bytes = .ok s ∧
      (serve Request.run requests s).1 = (serve Flat.run requests (.ofFile bytes n)).1 ∧
      Refines n requests (serve Request.run requests s).2
        (serve Flat.run requests (.ofFile bytes n)).2 := by
  obtain ⟨s, hopen, hs, hcount, hd, hshown⟩ := ofFile_run path hsize hn
  obtain ⟨hanswers, hlast⟩ := (Mirrors.ofFile hsize hs hd hcount hshown).serve requests
  exact ⟨s, hopen, hanswers, hlast.refines (Flat.count_serve requests (.ofFile bytes n))⟩

/-- Two pages of a file, a page far behind them that is fetched to be changed but is left as it is,
and one between them that is changed after it was written back. -/
theorem ofFile_refines_gap :
    ∃ s, ofFile defaultPath (Array.replicate (2 * pageSize) 7) = .ok s ∧
      (serve Request.run [.write ⟨9⟩ [], .flush, .write ⟨4⟩ [fun _ => Page.zero]] s).1 =
        (serve Flat.run [.write ⟨9⟩ [], .flush, .write ⟨4⟩ [fun _ => Page.zero]]
          (.ofFile (Array.replicate (2 * pageSize) 7) 2)).1 ∧
      Refines 2 [.write ⟨9⟩ [], .flush, .write ⟨4⟩ [fun _ => Page.zero]]
        (serve Request.run [.write ⟨9⟩ [], .flush, .write ⟨4⟩ [fun _ => Page.zero]] s).2
        (serve Flat.run [.write ⟨9⟩ [], .flush, .write ⟨4⟩ [fun _ => Page.zero]]
          (.ofFile (Array.replicate (2 * pageSize) 7) 2)).2 :=
  ofFile_refines defaultPath _ 2 Array.size_replicate (by decide) _

end Pager

end PagedTable
