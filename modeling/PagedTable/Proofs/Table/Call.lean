import PagedTable.Proofs.Table.Contents
import PagedTable.Proofs.Pager.Faithful

/-!
# Calls

Whoever has opened a table calls one operation after another and goes on with the table that is
left, whatever the answers were.

* `Table.Call`: the operations that can be called.
* `Table.perform`: a run of calls, with a `Record` of each.
* `ofFile_whole`: opening a file of whole pages. `ofFile_empty`: an empty file.
-/

namespace PagedTable

namespace Table

open PagedTable.Action Pager

/-- An operation that can be called on an open table. -/
inductive Call where
  | op (op : Op)
  | insertRow (row : Row)
  /-- The greatest key below a page, which need not be one of the tree. -/
  | greatest (id : PageId)
  | select

namespace Call

/-- What a call answers when it succeeds. -/
def Reply : Call → Type
  | op o => o.Reply
  | insertRow _ => Unit
  | greatest _ => Key
  | select => List Row

/-- Carries out a call. -/
def run : (call : Call) → Action Table call.Reply
  | op o => o.run
  | insertRow row => Table.insertRow row
  | greatest id => onTree fun _ => Tree.greatest id
  | select => Table.select

end Call

/-- A call and what came of it. -/
structure Record where
  call : Call
  answer : Except Fault call.Reply
  /-- Pages in use before the call. -/
  before : Nat
  /-- Pages in use after it. -/
  after : Nat

/-- Makes the calls one after the other, whatever they answer. -/
def perform : List Call → Table → List Record × Table
  | [], t => ([], t)
  | call :: calls, t =>
    let t' := (call.run t).2
    let (records, last) := perform calls t'
    ({ call, answer := (call.run t).1, before := t.pageCount, after := t'.pageCount } :: records,
      last)

theorem perform_append (calls more : List Call) (t : Table) :
    perform (calls ++ more) t =
      ((perform calls t).1 ++ (perform more (perform calls t).2).1,
        (perform more (perform calls t).2).2) := by
  induction calls generalizing t with
  | nil => rfl
  | cons call calls ih =>
    simp only [List.cons_append, perform]
    rw [ih]

/-- If no page is in use yet, the root is made. -/
theorem establish_new {s : Pager} (hs : s.Faithful) (hcount : s.count = 0) (config : Config) :
    Tree.establish ⟨rootPage, config⟩ s =
      (.ok (), s.wrote rootPage ((Page.empty .leaf).setRoot true)) := by
  have hroot : rootPage.index < maxPages := by decide
  have hzero : rootPage.index = 0 := rfl
  unfold Tree.establish
  rw [bind_ok (state_apply s), if_pos (show s.count ≤ rootPage.index by omega)]
  exact edit_cases hs hroot _

/-- A file of whole pages within the limit can be opened. If it is empty, the root is made. -/
theorem ofFile_whole (path : String) {bytes : Array UInt8} {n : Nat} (config : Config)
    (hsize : bytes.size = n * pageSize) (hn : n ≤ maxPages) :
    ∃ t, ofFile path bytes config = .ok t ∧ t.tree = ⟨rootPage, config⟩ ∧ t.pager.Faithful ∧
      t.pager.disk.damaged = [] ∧ 0 < t.pager.count ∧
      (0 < n → t.pager.count = n ∧
        ∀ id, t.pager.shown id = Page.ofBytesAt bytes id.offset) := by
  obtain ⟨s, hs, hfaithful, hcount, hd, hshown⟩ := Pager.ofFile_run path hsize hn
  let tree : Tree := { root := rootPage, config }
  have hroot : rootPage.index < maxPages := by decide
  have hzero : tree.root.index = 0 := rfl
  unfold ofFile ofFileAt
  rw [hs]
  dsimp only
  by_cases h : n = 0
  · -- An empty file has no root yet.
    have hmade : tree.establish s = _ := establish_new hfaithful (hcount.trans h) config
    have hdamaged := Tree.establish_keeps (T := tree) (damaged_closed []) s hd
    rw [hmade] at hdamaged ⊢
    have hcounted : (s.wrote rootPage ((Page.empty .leaf).setRoot true)).count ≠ 0 := by
      show max _ (0 + 1) ≠ 0
      omega
    exact ⟨_, rfl, rfl, hfaithful.wrote hroot _, hdamaged, Nat.pos_of_ne_zero hcounted, by omega⟩
  · have hmade : tree.establish s = (.ok (), s) := by
      unfold Tree.establish
      rw [bind_ok (state_apply s), if_neg (by omega)]
      rfl
    rw [hmade]
    exact ⟨_, rfl, rfl, hfaithful, hd, by show 0 < s.count; omega, fun _ => ⟨hcount, hshown⟩⟩

/-- A table that is opened on an empty file has one page, a leaf without cells. -/
theorem ofFile_empty (path : String) (config : Config) :
    ∃ t, ofFile path #[] config = .ok t ∧ t.pageCount = 1 ∧
      (fetch rootPage t.pager).1 = .ok ((Page.empty .leaf).setRoot true) ∧ (scan t).1 = .ok [] := by
  have hnew : (#[] : Array UInt8).size = 0 * pageSize := (Nat.zero_mul _).symm
  have hroot : rootPage.index < maxPages := by decide
  obtain ⟨s, hs, hfaithful, hcount, -, -⟩ := Pager.ofFile_run path hnew (Nat.zero_le _)
  obtain ⟨t, hopen, hstores⟩ := ofFile_stores path config
  have ht : t = ⟨⟨rootPage, config⟩, s.wrote rootPage ((Page.empty .leaf).setRoot true)⟩ := by
    unfold ofFile ofFileAt at hopen
    rw [hs] at hopen
    dsimp only at hopen
    rw [establish_new hfaithful hcount config] at hopen
    exact (Except.ok.inj hopen).symm
  obtain ⟨⟨entries, hscan, -, hmem⟩, -⟩ := hstores.correct .scan
  have hnil : entries = [] := by
    refine List.eq_nil_iff_forall_not_mem.mpr fun ⟨key, value⟩ h => ?_
    cases (hmem key value).mp h
  refine ⟨t, hopen, ?_, ?_, hnil ▸ hscan⟩
  · rw [ht]
    show max (s.fetched rootPage).count (rootPage.index + 1) = 1
    rw [(hfaithful.fetch_run hroot).2, hcount]
    rfl
  · rw [ht, ((hfaithful.wrote hroot _).fetch_run hroot).1, hfaithful.shown_wrote hroot,
      Function.update_self]

end Table

end PagedTable
