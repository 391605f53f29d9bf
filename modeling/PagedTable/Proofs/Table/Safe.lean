import PagedTable.Proofs.Cursor.Safe
import PagedTable.Proofs.Table.Call

/-!
# No file breaks a promise

A table may be opened from a file of any bytes. Its pages may then name each other as they like,
and an insert may have failed half-way before. No call asks a page for what is not there, and none
relies on a promise that was broken (`Fault.misused`): a call that comes to an end answers a value
or is refused.

How far a walk may go before it counts as endless plays no part in this: the lemmas about walks hold
for every bound.

* `Call.safe`: one call. `perform_safe`: a run of them.
* `ofFile_safe`: from any file of whole pages within the limit.
-/

namespace PagedTable

namespace Table

open PagedTable.Action

variable {α : Type} {φ : α → Prop}

/-- The table's cache is sound. -/
def Sound (t : Table) : Prop := t.pager.Sound

theorem onTree_safe {x : Tree → Action Pager α} (h : ∀ T, Safe Pager.Sound (x T) φ) :
    Safe Sound (onTree x) φ := by
  refine ⟨fun t ht => ?_⟩
  have hx : Safe Sound (onPart Table.pager (fun t pager => { t with pager }) (x t.tree)) φ :=
    .onPart fun _ ht => ⟨_, _, _, ht, h t.tree, fun _ _ ha => ha, fun _ hs => hs⟩
  exact hx.run t ht

/-- Operations that write nothing. -/
theorem onTree_safe_of_shows {x : Tree → Action Pager α}
    (h : ∀ T m, Safe (Pager.Shows m) (x T) fun _ => True) :
    Safe Sound (onTree x) fun _ => True :=
  onTree_safe fun T => Pager.safe_of_view fun m => (h T m).after
    (fun _ _ ha => ⟨trivial, ha.2.1⟩) fun _ hs => hs.1

/-- Operations with a cursor that starts on the first row. -/
theorem walking_safe {x : Tree → Action Walk α}
    (h : ∀ T m, Triple (Walk.Rests m) (x T) (fun _ w => w.pager.Sound) fun w => w.pager.Sound) :
    Safe Sound (walking x) fun _ => True := by
  refine onTree_safe fun T => Pager.safe_of_view fun m => ?_
  refine (Cursor.start_safe T m).seq (fun _ hs => hs.1) fun c hc => ⟨fun s hs => ?_⟩
  have hw := (h T m).run { cursor := c, pager := s } ⟨hc, hs⟩
  unfold walking.onCursor
  rcases hr : x T { cursor := c, pager := s } with ⟨e | a, w⟩
  · rw [hr] at hw
    exact hw
  · rw [hr] at hw
    exact ⟨trivial, hw⟩

theorem insert_safe (key : Key) (value : Payload) : Safe Sound (insert key value) fun _ => True :=
  onTree_safe fun _ => Tree.insert_safe key value

theorem insertRow_safe (row : Row) : Safe Sound (insertRow row) fun _ => True := by
  refine walking_safe fun T m => (Safe.ofExcept _).seq (fun _ hw => hw.2.1) fun value _ => ?_
  exact .onPart fun w hw => ⟨_, _, _, hw.2.1, Tree.insert_safe row.id value, fun _ _ ha => ha.2,
    fun _ hs => hs⟩

theorem get_safe (key : Key) : Safe Sound (get key) fun _ => True := by
  refine onTree_safe_of_shows fun T m => (Tree.get_safe m key).bind fun found _ => ?_
  cases found with
  | none => exact .pure trivial
  | some value => exact (Safe.ofExcept _).bind fun _ _ => .pure trivial

theorem scan_safe : Safe Sound scan fun _ => True :=
  walking_safe fun _ m => (Walk.entriesFrom_triple m _).after
    (fun _ _ hw => hw.2.1) fun _ hw => hw.1

theorem leadingRows_safe : Safe Sound leadingRows fun _ => True :=
  walking_safe fun _ m => (Walk.rowsFrom_triple m _).after
    (fun _ _ hw => hw.2.1) fun _ hw => hw.1

theorem select_safe : Safe Sound select fun _ => True :=
  leadingRows_safe.bind fun ⟨_, flaw⟩ _ => by
    cases flaw with
    | none => exact .pure trivial
    | some e => exact .refuse e

theorem search_safe (key : Key) : Safe Sound (onTree (·.search key)) fun _ => True :=
  onTree_safe_of_shows fun T m => (Tree.search_safe (T := T) m key).weaken fun _ _ => trivial

theorem validate_safe : Safe Sound validate fun _ => True :=
  onTree_safe_of_shows fun T m => Tree.validate_safe (T := T) m

theorem dump_safe : Safe Sound dump fun _ => True :=
  onTree_safe_of_shows fun T m => Tree.dump_safe (T := T) m

theorem flush_safe : Safe Sound flush fun _ => True := onTree_safe fun _ => Pager.flush_safe

theorem Op.safe (op : Op) : Safe Sound op.run fun _ => True := by
  cases op with
  | insert key value => exact insert_safe key value
  | get key => exact onTree_safe_of_shows (x := (·.get key)) fun T m => Tree.get_safe (T := T) m key
  | getRow key => exact get_safe key
  | search key => exact search_safe key
  | scan => exact scan_safe
  | validate => exact validate_safe
  | dump => exact dump_safe
  | flush => exact flush_safe

/-- **One call** breaks no promise and leaves a sound cache. -/
theorem Call.safe (call : Call) : Safe Sound call.run fun _ => True := by
  cases call with
  | op o => exact o.safe
  | insertRow row => exact insertRow_safe row
  | greatest id =>
    exact onTree_safe_of_shows (x := fun _ => Tree.greatest id) fun _ m => Tree.greatest_safe m id
  | select => exact select_safe

/-- **A run of calls.** -/
theorem perform_safe (calls : List Call) {t : Table} (ht : t.Sound) :
    ∀ r ∈ (perform calls t).1, r.answer ≠ .error .misused := by
  induction calls generalizing t with
  | nil => exact fun r hr => absurd hr List.not_mem_nil
  | cons call calls ih =>
    exact List.forall_mem_cons.mpr ⟨call.safe.ne_misused ht, ih (call.safe.keeps t ht)⟩

/-- **No file breaks a promise.** A file of whole pages within the limit can be opened, whatever its
bytes are. From then on no call of any run breaks a promise, also behind calls that were refused or
given up: what it answers is a value or a refusal, unless it would never end. -/
theorem ofFile_safe (path : String) (bytes : Array UInt8) (config : Config) (n : Nat)
    (hsize : bytes.size = n * pageSize) (hn : n ≤ maxPages) :
    ∃ t, ofFile path bytes config = .ok t ∧
      ∀ calls, ∀ r ∈ (perform calls t).1, r.answer ≠ .error .misused := by
  obtain ⟨t, hopen, -, hfaithful, -⟩ := ofFile_whole path config hsize hn
  exact ⟨t, hopen, fun calls => perform_safe calls hfaithful.sound⟩

/-- Two pages with the tag of an internal node that count more keys than a page has room for. -/
theorem ofFile_safe_twos :
    ∃ t, ofFile defaultPath (Array.replicate (2 * pageSize) 2) .full = .ok t ∧
      ∀ calls, ∀ r ∈ (perform calls t).1, r.answer ≠ .error .misused :=
  ofFile_safe defaultPath _ .full 2 Array.size_replicate (by decide)

end Table

end PagedTable
