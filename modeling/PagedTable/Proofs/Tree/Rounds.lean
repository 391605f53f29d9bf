import PagedTable.Cursor
import PagedTable.Proofs.Action.Loop

/-!
# The rounds of walks through the tree

Every walk that follows page numbers from node to node is a loop.

* `Tree.searching`, `Tree.seekingGreatest`, `Walk.descending`: the descents to the leaf of a key, to
  the greatest key and to the first leaf.
* `Tree.counting`, `Walk.climbing`: the climbs that count the pages of a split and that look for the
  next leaf.
* `Tree.hooking`: the climb that hooks halves in. It begins in the middle of an insert:
  `Tree.tearLeaf` and `Tree.insertBegin` are what comes before it (`Tree.insert_eq`).
* `Tree.hooking_round`: each of its rounds asks for one greatest key. `Tree.asking` is what comes
  before that, and `Tree.settle` what comes after it.
-/

namespace PagedTable

open PagedTable.Action Pager

namespace Tree

variable (t : Tree)

/-! ## Descents -/

/-- The descent to the leaf that covers a key. -/
def searching (key : Key) : Loop Pager PageId Position where
  walk := descend key
  round id := do
    let (kind, page) ← node id
    match kind with
    | .leaf =>
      let (index, found) ← need (page.find? key)
      return .inl { page := id, index, found }
    | .internal =>
      let i ← need (page.findChild? key)
      return .inr (← need (page.child? i))
  page id _ := id
  walk_succ n id := by
    rw [descend, bind_assoc]
    congr 1
    funext node
    obtain ⟨kind, page⟩ := node
    cases kind <;> simp only [bind_assoc, pure_bind, proceed]

/-- The descent to the greatest key. -/
def seekingGreatest : Loop Pager PageId Key where
  walk := greatestFrom
  round id := do
    let (kind, page) ← node id
    match kind with
    | .leaf =>
      if page.count = 0 then refuse (.treeCorrupted (.noGreatest id))
      else return .inl (← need (page.cellKey? (page.count - 1)))
    | .internal => return .inr page.rightChild
  page id _ := id
  walk_succ n id := by
    rw [greatestFrom, bind_assoc]
    congr 1
    funext node
    obtain ⟨kind, page⟩ := node
    cases kind with
    | leaf =>
      dsimp only
      split
      · rfl
      · simp only [bind_assoc, pure_bind, proceed, bind_pure]
    | internal => rfl

/-! ## Climbs -/

/-- The climb that counts the pages of a split. A place is a page and the count so far. -/
def counting : Loop Pager (PageId × Nat) Nat where
  walk n place := t.splitCost n place.1 place.2
  round place := do
    let (id, needed) := place
    let (_, page) ← node id
    if page.isRoot then return .inl (needed + 1)
    else
      let (_, parent) ← node page.parent
      if parent.count < t.config.internalMax then return .inl needed
      else return .inr (page.parent, needed + 1)
  page place _ := place.1
  walk_succ n place := by
    rw [splitCost, bind_assoc]
    congr 1
    funext node
    obtain ⟨_, page⟩ := node
    dsimp only
    split
    · rfl
    · rw [bind_assoc]
      congr 1
      funext node
      obtain ⟨_, parent⟩ := node
      dsimp only
      split <;> rfl

/-- The climb that hooks halves in. A place is the pages of a lower and of an upper half. -/
def hooking : Loop Pager (PageId × PageId) Unit where
  walk n halves := t.hook n halves.1 halves.2
  round halves := do
    let (left, right) := halves
    let (_, page) ← node left
    if page.isRoot then
      t.raiseRoot right
      return .inl ()
    else
      let id := page.parent
      let key ← greatest left
      let (_, parent) ← node id
      let keys ← need parent.separators?
      let children ← need parent.children?
      match children.idxOf? left with
      | none => refuse (.treeCorrupted (.orphan left id))
      | some i =>
        require (i ≤ keys.length)
        let keys := keys.insertIdx i key
        let children := children.insertIdx (i + 1) right
        if keys.length ≤ t.config.internalMax then
          edit id fun p => (p.insertLink? i ⟨left, key⟩).bind fun p => p.setChild? (i + 1) right
          setParent id right
          return .inl ()
        else
          let new ← splitInternal id parent.parent keys children
          return .inr (id, new)
  page halves _ := halves.1
  walk_succ n halves := by
    rw [hook, bind_assoc]
    congr 1
    funext node
    obtain ⟨_, page⟩ := node
    dsimp only
    split
    · simp only [bind_assoc, pure_bind, proceed, bind_pure_unit]
    · simp only [bind_assoc]
      congr 1
      funext key
      congr 1
      funext node
      obtain ⟨_, parent⟩ := node
      congr 1
      funext keys
      congr 1
      funext children
      cases children.idxOf? halves.1 with
      | none => rfl
      | some i =>
        dsimp only
        rw [bind_assoc]
        congr 1
        funext _
        split <;> simp only [bind_assoc, pure_bind, proceed, bind_pure_unit]

/-! ## Rounds of hooking in -/

/-- Moves the root's content to a new page, which is the answer. -/
def moveRoot : Action Pager PageId := do
  let left ← allocate
  let old ← fetch t.root
  let moved := (old.setRoot false).setParent t.root
  edit left fun _ => some moved
  adopt left moved
  return left

/-- Makes the root an internal node above `left` and `right`, with one key between them. -/
def crown (left right : PageId) (key : Key) : Action Pager Unit := do
  edit t.root fun _ => ((Page.empty .internal).setRoot true).setLinks? [⟨left, key⟩] right
  edit right fun p => some ((p.setRoot false).setParent t.root)

theorem raiseRoot_eq (right : PageId) :
    t.raiseRoot right = (do
      let left ← t.moveRoot
      let key ← greatest left
      t.crown left right key) := by
  simp only [raiseRoot, moveRoot, crown, bind_assoc, pure_bind]

/-- A round that hooks in the upper half of `left`, up to where it asks for the greatest key below a
page. The answer is that page and the parent: `left` itself, or, if that is the root, the page to
which its content was moved. -/
def asking (left : PageId) : Action Pager (PageId × Option PageId) := do
  let (_, page) ← node left
  if page.isRoot then return (← t.moveRoot, none) else return (left, some page.parent)

/-- The rest of the round, from the key on that it was told. -/
def settle (right : PageId) :
    PageId × Option PageId → Key → Action Pager (Unit ⊕ PageId × PageId)
  | (left, none), key => do
    t.crown left right key
    return .inl ()
  | (left, some id), key => do
    let (_, parent) ← node id
    let keys ← need parent.separators?
    let children ← need parent.children?
    match children.idxOf? left with
    | none => refuse (.treeCorrupted (.orphan left id))
    | some i =>
      require (i ≤ keys.length)
      let keys := keys.insertIdx i key
      let children := children.insertIdx (i + 1) right
      if keys.length ≤ t.config.internalMax then
        edit id fun p => (p.insertLink? i ⟨left, key⟩).bind fun p => p.setChild? (i + 1) right
        setParent id right
        return .inl ()
      else
        let new ← splitInternal id parent.parent keys children
        return .inr (id, new)

/-- **A round of hooking in asks once for a greatest key.** -/
theorem hooking_round (left right : PageId) :
    t.hooking.round (left, right) = (do
      let asked ← t.asking left
      let key ← greatest asked.1
      t.settle right asked key) := by
  simp only [hooking, asking, bind_assoc]
  congr 1
  funext node
  obtain ⟨_, page⟩ := node
  dsimp only
  split
  · simp only [raiseRoot_eq, settle, bind_assoc, pure_bind]
  · rfl

/-! ## Inserts -/

/-- Splits a full leaf around a new cell for index `i`, up to where the upper half, which is the
answer, is to be hooked in. -/
def tearLeaf (leaf : PageId) (i : Nat) (c : Cell) : Action Pager PageId := do
  let (_, page) ← node leaf
  let cells ← need page.cells?
  require (i ≤ cells.length)
  let cells := cells.insertIdx i c
  let half := (cells.length + 1) / 2
  let new ← allocate
  edit new fun _ => ((Page.empty .leaf).setParent page.parent).setCells? (cells.drop half)
  edit leaf fun p => p.setCells? (cells.take half)
  return new

theorem splitLeaf_eq (leaf : PageId) (i : Nat) (c : Cell) :
    t.splitLeaf leaf i c = tearLeaf leaf i c >>= t.hook walkLength leaf := by
  simp only [splitLeaf, tearLeaf, bind_assoc, pure_bind]

/-- Inserts `value` under `key`, up to where the halves of a leaf are to be hooked in. These are the
answer, if the leaf had to be split. -/
def insertBegin (key : Key) (value : Payload) : Action Pager (Option (PageId × PageId)) := do
  let pos ← t.search key
  if pos.found then refuse (.duplicateKey key)
  else
    let (_, leaf) ← node pos.page
    if leaf.count < t.config.leafMax then
      edit pos.page fun p => p.insertCell? pos.index ⟨key, value⟩
      return none
    else
      t.reserve pos.page
      return some (pos.page, ← tearLeaf pos.page pos.index ⟨key, value⟩)

/-- Hooks halves in, if there are any. -/
def insertEnd : Option (PageId × PageId) → Action Pager Unit
  | none => pure ()
  | some (left, right) => t.hook walkLength left right

theorem insert_eq (key : Key) (value : Payload) :
    t.insert key value = t.insertBegin key value >>= t.insertEnd := by
  rw [insert, insertBegin, bind_assoc]
  congr 1
  funext pos
  split
  · rfl
  · rw [bind_assoc]
    congr 1
    funext node
    obtain ⟨_, leaf⟩ := node
    dsimp only
    split
    · simp only [bind_assoc, pure_bind, insertEnd, bind_pure_unit]
    · simp only [splitLeaf_eq, bind_assoc, pure_bind]
      rfl

end Tree

namespace Walk

/-- The descent to the first leaf below the cursor's page. -/
def descending : Loop Walk Unit Unit where
  walk n _ := descendFirst n
  round _ := do
    let id := (← state).cursor.page
    let (kind, page) ← node id
    match kind with
    | .leaf =>
      move fun c => { c with cell := 0, atEnd := page.count = 0 }
      return .inl ()
    | .internal =>
      if page.count = 0 then refuse (.treeCorrupted (.noKeys id))
      else
        let first ← need (page.child? 0)
        move fun c => { c with page := first }
        return .inr ()
  page _ w := w.cursor.page
  walk_succ n _ := by
    rw [descendFirst]
    simp only [bind_assoc]
    congr 1
    funext w
    congr 1
    funext node
    obtain ⟨kind, page⟩ := node
    cases kind with
    | leaf => rfl
    | internal =>
      dsimp only
      split
      · rfl
      · simp only [bind_assoc, pure_bind, proceed]

/-- The climb to the first ancestor with a next child, and down from there. -/
def climbing : Loop Walk PageId Unit where
  walk := climb
  round id := do
    let (_, page) ← node id
    if page.isRoot then
      move fun c => { c with atEnd := true }
      return .inl ()
    else
      let up := page.parent
      let (_, parent) ← node up
      match ← need (parent.indexOf? id) with
      | none => refuse (.treeCorrupted (.orphan id up))
      | some i =>
        if i = parent.count then return .inr up
        else
          let next ← need (parent.child? (i + 1))
          move fun c => { c with page := next }
          descendFirst walkLength
          return .inl ()
  page id _ := id
  walk_succ n id := by
    rw [climb, bind_assoc]
    congr 1
    funext node
    obtain ⟨_, page⟩ := node
    dsimp only
    split
    · rfl
    · simp only [bind_assoc]
      congr 1
      funext node
      obtain ⟨_, parent⟩ := node
      congr 1
      funext i
      cases i with
      | none => rfl
      | some i =>
        dsimp only
        split
        · rfl
        · simp only [bind_assoc, pure_bind, proceed, bind_pure_unit]

end Walk

end PagedTable
