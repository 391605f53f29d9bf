import PagedTable.Proofs.Cursor.Respects
import PagedTable.Proofs.Table.Call

/-!
# What a call cannot tell apart

A relation between pagers that accesses to pages respect, and writing back too, is respected by
every call on tables of one tree: the answers and the page counts are the same.

* `Table.Along T R`: both tables have the tree `T`, and `R` relates their pagers.
* `Call.respects`: one call. `perform_respects`: a run of them.
* `Call.keeps`: the same for a property of pagers.
-/

namespace PagedTable

namespace Table

open PagedTable.Action Pager

variable {R : Pager → Pager → Prop} {T : Tree} {α : Type}

/-- Both tables have the tree `T`, and `R` relates their pagers. -/
structure Along (T : Tree) (R : Pager → Pager → Prop) (t t' : Table) : Prop where
  left : t.tree = T
  right : t'.tree = T
  pager : R t.pager t'.pager

theorem onTree_respects {x : Tree → Action Pager α} (hx : Respects R (x T)) :
    Respects (Along T R) (onTree x) := by
  have hpart : Respects (Along T R) (onPart Table.pager (fun t pager => { t with pager }) (x T)) :=
    .onPart hx (fun _ _ h => h.pager) fun _ _ _ _ h hs => ⟨h.left, h.right, hs⟩
  intro t t' h
  unfold onTree
  rw [h.left, h.right]
  exact hpart t t' h

theorem onCursor_respects {x : Action Walk α} (hx : Respects (Walk.Along R) x) (c : Cursor) :
    Respects R (walking.onCursor c x) := by
  intro s s' h
  obtain ⟨heq, -, hpager⟩ := hx ⟨c, s⟩ ⟨c, s'⟩ ⟨rfl, h⟩
  exact ⟨heq, hpager⟩

theorem walking_respects (hR : Reads R) {x : Tree → Action Walk α}
    (hx : Respects (Walk.Along R) (x T)) : Respects (Along T R) (walking x) :=
  onTree_respects (.bind (Cursor.start_respects hR T) (onCursor_respects hx))

theorem insertRow_respects (hR : Accesses R) (row : Row) :
    Respects (Along T R) (insertRow row) :=
  walking_respects hR.toReads (Walk.insertRow_respects hR T row)

theorem get_respects (hR : Reads R) (key : Key) : Respects (Along T R) (get key) := by
  refine onTree_respects (.bind (Tree.get_respects hR key) fun found => ?_)
  cases found with
  | none => exact .pure _
  | some value => exact .bind (.ofExcept _) fun _ => .pure _

theorem select_respects (hR : Reads R) : Respects (Along T R) select := by
  refine .bind (walking_respects hR (Walk.rowsFrom_respects hR _)) fun ⟨_, flaw⟩ => ?_
  cases flaw with
  | none => exact .pure _
  | some e => exact .fail _

theorem Op.respects (hR : Accesses R) (op : Op) (hflush : op = .flush → Respects R Pager.flush) :
    Respects (Along T R) op.run := by
  cases op with
  | insert key value => exact onTree_respects (Tree.insert_respects hR key value)
  | get key => exact onTree_respects (x := (·.get key)) (Tree.get_respects hR.toReads key)
  | getRow key => exact get_respects hR.toReads key
  | search key => exact onTree_respects (x := (·.search key)) (Tree.search_respects hR.toReads key)
  | scan => exact walking_respects hR.toReads (Walk.entriesFrom_respects hR.toReads _)
  | validate => exact onTree_respects (Tree.validate_respects hR.toReads)
  | dump => exact onTree_respects (Tree.dump_respects hR.toReads)
  | flush => exact onTree_respects (x := fun _ => Pager.flush) (hflush rfl)

/-- **One call** answers the same from both tables. Only a call to `flush` writes back. -/
theorem Call.respects (hR : Accesses R) (call : Call)
    (hflush : call = .op .flush → Respects R Pager.flush) : Respects (Along T R) call.run := by
  cases call with
  | op o => exact o.respects hR fun h => hflush (congrArg Call.op h)
  | insertRow row => exact insertRow_respects hR row
  | greatest id =>
    exact onTree_respects (x := fun _ => Tree.greatest id) (Tree.greatest_respects hR.toReads id)
  | select => exact select_respects hR.toReads

/-- What accesses to pages keep up, a call keeps up. -/
theorem Call.keeps {P : Pager → Prop} (hP : Closed P) (call : Call)
    (hflush : call = .op .flush → Keeps P Pager.flush) {t : Table} (h : P t.pager) :
    P (call.run t).2.pager :=
  (call.respects hP.accesses (fun hcall => respects_same.mpr (hflush hcall)) t t
    ⟨rfl, rfl, h, rfl⟩).2.pager.1

/-- **A run of calls** has the same records from both tables. -/
theorem perform_respects (hR : Accesses R) (hflush : Respects R Pager.flush) (calls : List Call)
    {t t' : Table} (h : Along T R t t') :
    (perform calls t).1 = (perform calls t').1 ∧
      Along T R (perform calls t).2 (perform calls t').2 := by
  induction calls generalizing t t' with
  | nil => exact ⟨rfl, h⟩
  | cons call calls ih =>
    obtain ⟨hanswer, h'⟩ := call.respects hR (fun _ => hflush) t t' h
    obtain ⟨hrecords, hlast⟩ := ih h'
    refine ⟨?_, hlast⟩
    show Record.mk call _ t.pager.count (call.run t).2.pager.count :: _ =
      Record.mk call _ t'.pager.count (call.run t').2.pager.count :: _
    rw [hanswer, hrecords, hR.count _ _ h.pager, hR.count _ _ h'.pager]

end Table

end PagedTable
