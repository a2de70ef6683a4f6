import CJson.HeapMade

/-!
# Trees on a shelf

What a program holds are trees, each known by the address of its root.  A call
that keeps to the rules exchanges the tree of one node for what the function on
trees makes of it, takes the tree that is put in off the shelf, and puts the one
that is taken out there.
-/

namespace CJson

open CString

namespace Heap

open OrderedForest

variable {fieldsOf later : Addr -> Fields} {forest forest' : OrderedForest Addr} {top parent : Addr} {item : Item}

/-- The trees that a program holds, by their roots. -/
abbrev Shelf := Addr -> Option Item

/-- The nodes hold these trees.  A shelf has a tree for each root, and for nothing
else. -/
structure Holds (fieldsOf : Addr -> Fields) (forest : OrderedForest Addr) (shelf : Shelf) : Prop where
  roots : ∀ node, (shelf node).isSome = true ↔ forest.IsRoot node
  shows : ∀ node item, shelf node = some item -> Shows fieldsOf forest node item

/-- A node of a tree on the shelf has this tree of its own.  Inside the forest it is
reached by the path by which the subtree is reached inside the tree. -/
def Own (forest : OrderedForest Addr) (shelf : Shelf) (place : Addr) (own : Item) : Prop :=
  ∃ root path item, shelf root = some item ∧ forest.at? root path = some place ∧ item.at? path = some own

/-- The tree of a node has been exchanged, and the tree on the shelf that contains it
with it.  All other trees on the shelf are what they were. -/
def Rewritten (forest : OrderedForest Addr) (shelf : Shelf) (place : Addr) (changed : Item) (shelf' : Shelf) : Prop :=
  ∃ root path item final, shelf root = some item ∧ forest.at? root path = some place ∧
    item.modify (fun _ => some changed) path = some final ∧ shelf' = Function.update shelf root (some final)

theorem exists_holds (fieldsOf : Addr -> Fields) (forest : OrderedForest Addr) :
    ∃ shelf, Holds fieldsOf forest shelf := by
  classical
  choose tree shows using exists_shows fieldsOf forest
  refine ⟨fun node => if forest.IsRoot node then some (tree node) else none, ?_, ?_⟩
  · intro node
    by_cases root : forest.IsRoot node <;> simp [root]
  · intro node item held
    split at held
    · cases held
      exact shows node
    · cases held

/-- A root has joined a list, or a child has left it, or both; a child that has left
may be gone with its tree.  Every call that changes a list is of this kind, and what
it does to the trees follows from this alone. -/
structure Swaps (forest forest' : OrderedForest Addr) (parent : Addr) (list : List Addr) (joined left : Pointer)
    (gone : Addr -> Prop) : Prop where
  edits : Edits forest forest' parent list gone
  isLive : parent ∈ forest.live
  members : ∀ node, node ∈ list ↔ joined = some node ∨ (node ∈ forest.children parent ∧ left ≠ some node)
  joins : ∀ node, joined = some node -> forest.CanHold parent node
  leaves : ∀ node, left = some node -> node ∈ forest.children parent
  gone : ∀ node, gone node -> ∃ item, left = some item ∧ forest.Below item node ∧
    ∀ lower, forest.Below item lower -> gone lower

namespace Swaps

variable {list : List Addr} {joined left : Pointer} {gone : Addr -> Prop}

theorem subtrees (swaps : Swaps forest forest' parent list joined left gone) : Subtrees forest parent gone := by
  intro node dead
  rcases swaps.gone node dead with ⟨item, isLeft, below, whole⟩
  exact ⟨item, swaps.leaves item isLeft, below, whole⟩

theorem apart (swaps : Swaps forest forest' parent list joined left gone) :
    ∀ child ∈ list, ¬ forest.Below child parent := by
  intro child inside
  rcases (swaps.members child).mp inside with isJoined | ⟨isChild, _⟩
  · exact (swaps.joins child isJoined).apart
  · exact not_below_child isChild

/-- What has joined is no root any more, and what has left is one, unless it is gone. -/
theorem isRoot_iff (swaps : Swaps forest forest' parent list joined left gone) (node : Addr) :
    forest'.IsRoot node ↔ (forest.IsRoot node ∧ joined ≠ some node) ∨ (left = some node ∧ ¬ gone node) := by
  have stays : ¬ gone parent := by
    intro dead
    rcases swaps.subtrees parent dead with ⟨child, isChild, under, _⟩
    exact not_below_child isChild under
  constructor
  · rintro ⟨isLive, orphan⟩
    rcases (swaps.edits.live node).mp isLive with ⟨wasLive, alive⟩
    have outside := orphan parent
    rw [swaps.edits.list, swaps.members, not_or, not_and, not_not] at outside
    by_cases isChild : node ∈ forest.children parent
    · exact Or.inr ⟨outside.2 isChild, alive⟩
    · refine Or.inl ⟨⟨wasLive, ?_⟩, outside.1⟩
      intro other inside
      by_cases dead : gone other
      · rcases swaps.gone other dead with ⟨item, _, below, whole⟩
        exact alive (whole node (below.step inside))
      · by_cases same : other = parent
        · exact isChild (same ▸ inside)
        · exact orphan other (by rwa [swaps.edits.others other same dead])
  · rintro (⟨⟨isLive, orphan⟩, notJoined⟩ | ⟨isLeft, alive⟩)
    · have alive : ¬ gone node := by
        intro dead
        rcases swaps.subtrees node dead with ⟨item, isChild, below, _⟩
        rcases Relation.ReflTransGen.cases_head below with rfl | ⟨other, inside, _⟩
        · exact orphan _ isChild
        · exact orphan other inside
      refine ⟨(swaps.edits.live node).mpr ⟨isLive, alive⟩, ?_⟩
      intro other inside
      by_cases same : other = parent
      · rw [same, swaps.edits.list, swaps.members] at inside
        rcases inside with isJoined | ⟨isChild, _⟩
        · exact notJoined isJoined
        · exact orphan parent isChild
      · have present : ¬ gone other := fun dead => ((swaps.edits.live other).mp (forest'.closed inside).2).2 dead
        rw [swaps.edits.others other same present] at inside
        exact orphan other inside
    · have isChild := swaps.leaves node isLeft
      refine ⟨(swaps.edits.live node).mpr ⟨(forest.closed isChild).1, alive⟩, ?_⟩
      intro other inside
      by_cases same : other = parent
      · rw [same, swaps.edits.list, swaps.members] at inside
        rcases inside with isJoined | ⟨_, notLeft⟩
        · exact (swaps.joins node isJoined).root.2 parent isChild
        · exact notLeft isLeft
      · have present : ¬ gone other := fun dead => ((swaps.edits.live other).mp (forest'.closed inside).2).2 dead
        rw [swaps.edits.others other same present] at inside
        exact same (forest.unique inside isChild)

/-- The shelf after a swap: the tree with the list is rewritten, what has joined is in
it now, and what has left is on the shelf or gone.  The node with the list may have got
other fields, too. -/
theorem holds (swaps : Swaps forest forest' parent list joined left gone) {shelf : Shelf}
    (holds : Holds fieldsOf forest shelf)
    (same : ∀ node ∈ forest.live, node ≠ parent -> later node = fieldsOf node)
    {child : List Item} {headPrev : HeadPrev} (linked : child ≠ [] -> headPrev = .at (child.length - 1))
    (each : List.Forall₂ (Shows fieldsOf forest) list child) {root : Addr} {path : Item.Path}
    (isRoot : forest.IsRoot root) (held : shelf root = some item) (leads : forest.at? root path = some parent)
    (released : Option Item) (letGo : ∀ node, left = some node -> (released.isSome = true ↔ ¬ gone node) ∧
      ∀ tree, released = some tree -> Shows fieldsOf forest node tree) :
    ∃ final, item.modify (fun _ => some (.mk (later parent) child headPrev)) path = some final ∧
      Holds later forest' fun node =>
        if node = root then some final
        else if joined = some node then none
        else if left = some node then released
        else shelf node := by
  have below := below_of_at? leads
  have rootStays : forest'.IsRoot root := by
    refine (swaps.isRoot_iff root).mpr (Or.inl ⟨isRoot, ?_⟩)
    intro isJoined
    exact (swaps.joins root isJoined).apart below
  rcases swaps.edits.within swaps.subtrees same swaps.apart linked each leads
    (holds.shows root item held) with ⟨final, modified, shows⟩
  refine ⟨final, modified, ?_, ?_⟩
  · intro node
    by_cases isRoot : node = root
    · simp [isRoot, rootStays]
    · rw [if_neg isRoot, swaps.isRoot_iff]
      by_cases isJoined : joined = some node
      · have notLeft : left ≠ some node := fun isLeft =>
          (swaps.joins node isJoined).root.2 _ (swaps.leaves node isLeft)
        simp [isJoined, notLeft]
      · by_cases isLeft : left = some node
        · have child : ¬ forest.IsRoot node := fun root => root.2 _ (swaps.leaves node isLeft)
          simp [isJoined, isLeft, child, (letGo node isLeft).1]
        · simp [isJoined, isLeft, holds.roots]
  · intro node tree there
    by_cases isRoot : node = root
    · rw [if_pos isRoot] at there
      cases there
      exact isRoot ▸ shows
    · rw [if_neg isRoot] at there
      by_cases isJoined : joined = some node
      · rw [if_pos isJoined] at there
        cases there
      · rw [if_neg isJoined] at there
        by_cases isLeft : left = some node
        · rw [if_pos isLeft] at there
          have stays := (letGo node isLeft).1.mp (by rw [there]; rfl)
          have isChild := swaps.leaves node isLeft
          exact swaps.edits.elsewhere swaps.subtrees same
            ((swaps.edits.live node).mpr ⟨(forest.closed isChild).1, stays⟩)
            (not_below_child isChild) ((letGo node isLeft).2 tree there)
        · rw [if_neg isLeft] at there
          have wasRoot := (holds.roots node).mp (by rw [there]; rfl)
          have stays := (swaps.isRoot_iff node).mpr (Or.inl ⟨wasRoot, isJoined⟩)
          refine swaps.edits.elsewhere swaps.subtrees same stays.1 ?_ (holds.shows node tree there)
          exact fun above => isRoot (root_unique wasRoot ‹_› above below)

end Swaps

/-- A tree that is gone has taken its root with it, and no other. -/
theorem Trims.isRoot_iff {root : Addr} (isRoot : forest.IsRoot root)
    (trims : Trims forest forest' (forest.Below root))
    (node : Addr) : forest'.IsRoot node ↔ forest.IsRoot node ∧ node ≠ root := by
  constructor
  · rintro ⟨isLive, orphan⟩
    rcases (trims.live node).mp isLive with ⟨wasLive, alive⟩
    refine ⟨⟨wasLive, fun parent isChild => ?_⟩, ?_⟩
    · by_cases gone : forest.Below root parent
      · exact alive (gone.step isChild)
      · exact orphan parent (by rwa [trims.lists parent gone])
    · rintro rfl
      exact alive .refl
  · rintro ⟨wasRoot, different⟩
    have alive : ¬ forest.Below root node := fun below => different (root_unique wasRoot isRoot .refl below)
    refine ⟨(trims.live node).mpr ⟨wasRoot.1, alive⟩, fun parent isChild => ?_⟩
    have stays := ((trims.live parent).mp (forest'.closed isChild).2).2
    rw [trims.lists parent stays] at isChild
    exact wasRoot.2 parent isChild

/-- Every node is in a tree on the shelf. -/
theorem Holds.own {shelf : Shelf} {place : Addr} (holds : Holds fieldsOf forest shelf) (finite : forest.live.Finite)
    (isLive : place ∈ forest.live) : ∃ root path item own, forest.IsRoot root ∧ shelf root = some item ∧
      forest.at? root path = some place ∧ item.at? path = some own ∧ Shows fieldsOf forest place own := by
  rcases exists_root finite isLive with ⟨root, isRoot, below⟩
  rcases exists_at? below with ⟨path, leads⟩
  rcases Option.isSome_iff_exists.mp ((holds.roots root).mpr isRoot) with ⟨item, held⟩
  rcases (holds.shows root item held).at? leads with ⟨own, there, shows⟩
  exact ⟨root, path, item, own, isRoot, held, leads, there, shows⟩

/-- Other fields for a node are other fields in the tree that contains it, and no
other tree changes. -/
theorem Holds.rename {shelf : Shelf} {node : Addr} (holds : Holds fieldsOf forest shelf)
    (finite : forest.live.Finite) (isLive : node ∈ forest.live) (change : Fields -> Fields) :
    ∃ own named, Own forest shelf node own ∧
      Rewritten forest shelf node (own.withFields (change own.fields)) named ∧
        Holds (Function.update fieldsOf node (change (fieldsOf node))) forest named := by
  rcases holds.own finite isLive with ⟨root, path, item, own, isRoot, held, leads, there, shows⟩
  rcases shows_iff.mp shows with ⟨fields, linked, each⟩
  have swaps : Swaps forest forest node (forest.children node) none none fun _ => False := {
    edits := ⟨fun _ => by simp, rfl, fun _ _ _ => rfl⟩
    isLive := isLive
    members := fun _ => by simp
    joins := fun _ impossible => nomatch impossible
    leaves := fun _ impossible => nomatch impossible
    gone := fun _ impossible => impossible.elim }
  have others : ∀ other ∈ forest.live, other ≠ node ->
      Function.update fieldsOf node (change (fieldsOf node)) other = fieldsOf other :=
    fun other _ different => Function.update_of_ne different _ _
  rcases swaps.holds holds others linked each isRoot held leads none (fun _ impossible => nomatch impossible)
    with ⟨final, modified, holds'⟩
  refine ⟨own, _, ⟨root, path, item, held, leads, there⟩, ⟨root, path, item, final, held, leads, ?_, ?_⟩, holds'⟩
  · rw [Function.update_self, ← fields] at modified
    exact modified
  · funext other
    by_cases same : other = root
    · simp [same]
    · simp [same]

/-- A root is at the top of its tree. -/
theorem at_root {root node : Addr} {path : Item.Path} (isRoot : forest.IsRoot node)
    (leads : forest.at? root path = some node) : root = node ∧ path = [] := by
  cases path with
  | nil =>
      cases leads
      exact ⟨rfl, rfl⟩
  | cons position path =>
      rw [OrderedForest.at?] at leads
      split at leads
      · cases leads
      · rename_i child there
        have isChild := List.mem_of_getElem? there
        rcases Relation.ReflTransGen.cases_head (below_of_at? leads) with rfl | ⟨parent, inside, _⟩
        · exact absurd isChild (isRoot.2 root)
        · exact absurd inside (isRoot.2 parent)

theorem Own.at_root {shelf : Shelf} {node : Addr} (isRoot : forest.IsRoot node)
    (contains : Own forest shelf node item) :
    shelf node = some item := by
  rcases contains with ⟨root, path, whole, held, leads, there⟩
  rcases Heap.at_root isRoot leads with ⟨rfl, rfl⟩
  cases there
  exact held

theorem Rewritten.at_root {shelf shelf' : Shelf} {node : Addr} (isRoot : forest.IsRoot node)
    (rewritten : Rewritten forest shelf node item shelf') : shelf' = Function.update shelf node (some item) := by
  rcases rewritten with ⟨root, path, whole, final, _, leads, modified, rfl⟩
  rcases Heap.at_root isRoot leads with ⟨rfl, rfl⟩
  cases modified
  rfl

/-! ## What the functions on trees make of well linked lists -/

/-- The first child's `prev` names the last child. -/
def Linked (child : List Item) (headPrev : HeadPrev) : Prop := child ≠ [] -> headPrev = .at (child.length - 1)

section Trees

variable {array added : Item}

theorem addItemToArray_linked (linked : Linked array.child array.headPrev) :
    CJson.addItemToArray array added =
      some (array.withChildren (array.child ++ [added]) (.at array.child.length)) := by
  rcases array with ⟨fields, child, headPrev⟩
  cases child with
  | nil => rfl
  | cons first rest =>
      have last : headPrev = .at rest.length := linked (List.cons_ne_nil _ _)
      subst last
      simp [CJson.addItemToArray]

theorem insertItemInArray_linked (linked : Linked array.child array.headPrev) {which : Int} (index : ¬ which < 0) :
    CJson.cjsonInsertItemInArray array which added =
      some (array.withChildren (array.child.insertIdx (min which.toNat array.child.length) added)
        (.at array.child.length)) := by
  rw [CJson.cjsonInsertItemInArray, if_neg index]
  by_cases inside : which.toNat < array.child.length
  · have nonempty : array.child ≠ [] := by
      rintro empty
      simp [empty] at inside
    rw [if_pos inside, Nat.min_eq_left (Nat.le_of_lt inside), linked nonempty, HeadPrev.afterInsertion,
      if_pos (Nat.le_sub_one_of_lt inside), Nat.sub_add_cancel (Nat.lt_of_le_of_lt (Nat.zero_le _) inside)]
  · rw [if_neg inside, Nat.min_eq_right (Nat.le_of_not_lt inside), List.insertIdx_length_self,
      addItemToArray_linked linked]

theorem detach_linked (linked : Linked array.child array.headPrev) {position : Nat} {detached : Item}
    (there : array.child[position]? = some detached) : ∃ headPrev,
    CJson.cjsonDetachItemViaPointer array position =
      some (detached, array.withChildren (array.child.eraseIdx position) headPrev) ∧
        Linked (array.child.eraseIdx position) headPrev := by
  rcases List.getElem?_eq_some_iff.mp there with ⟨short, _⟩
  refine ⟨_, by rw [CJson.cjsonDetachItemViaPointer, there], ?_⟩
  have nonempty : array.child ≠ [] := by
    rintro empty
    simp [empty] at short
  intro remains
  have several : 1 < array.child.length := by
    have length := List.length_pos_iff.mpr remains
    rw [List.length_eraseIdx_of_lt short] at length
    omega
  rw [List.length_eraseIdx_of_lt short, linked nonempty]
  split
  · rename_i last
    congr 1
    omega
  · rename_i other
    rw [HeadPrev.afterRemoval, if_neg (by omega), if_pos (by omega)]

theorem replace_linked (added : Item) (linked : Linked array.child array.headPrev) {position : Nat}
    (short : position < array.child.length) :
    CJson.cjsonReplaceItemViaPointer array position added =
      some (array.withChildren (array.child.set position added) (.at (array.child.length - 1))) := by
  have nonempty : array.child ≠ [] := by
    rintro empty
    simp [empty] at short
  rw [CJson.cjsonReplaceItemViaPointer, if_pos short, linked nonempty]
  dsimp only
  congr 2
  split
  · congr 1
    omega
  · rw [HeadPrev.afterReplacement, if_neg (by omega)]

end Trees

/-! ## Searching in nodes and in trees -/

theorem compareBy_comm_zero {fold : UInt8 -> UInt8} (keeps : KeepsTerminator fold) (left right : Bytes) :
    compareBy fold left right = 0 ↔ compareBy fold right left = 0 := by
  rw [(compareBy_spec keeps left right).2, (compareBy_spec keeps right left).2, eq_comm]

/-- A search along the members of a tree goes on behind the first one if that is not
where it stops. -/
theorem findIdx?_skip (hit : Item -> Bool) {item : Item} (misses : hit item = false) (child : List Item) :
    ((item :: child).findIdx? hit).filter (fun position => ((item :: child)[position]?.bind Item.string).isSome) =
      ((child.findIdx? hit).filter fun position => (child[position]?.bind Item.string).isSome).map (· + 1) := by
  rw [List.findIdx?_cons, if_neg (by simp [misses])]
  cases child.findIdx? hit with
  | none => rfl
  | some position =>
      simp only [Option.map_some, Option.filter_some, List.getElem?_cons_succ]
      split <;> rfl

/-- Both searches along a list of members stop at the same place: the one on linked
nodes and the one on trees. -/
theorem findMember_positions {nodes : List Addr} {child : List Item} (distinct : nodes.Nodup)
    (fields : List.Forall₂ (fun node item => item.string = (fieldsOf node).string) nodes child)
    (name : Bytes) (caseSensitive : Bool) {own : Fields} {headPrev : HeadPrev} :
    CJson.getObjectItem (.mk own child headPrev) name caseSensitive =
      (findMember fieldsOf name caseSensitive nodes).map nodes.idxOf := by
  induction fields with
  | nil => cases caseSensitive <;> rfl
  | @cons node item nodes child same rest hypothesis =>
      have behind := hypothesis (List.nodup_cons.mp distinct).2
      have step : (findMember fieldsOf name caseSensitive nodes).map (node :: nodes).idxOf =
          (CJson.getObjectItem (.mk own child headPrev) name caseSensitive).map (· + 1) := by
        rw [behind]
        cases found : findMember fieldsOf name caseSensitive nodes with
        | none => rfl
        | some other =>
            have different : node ≠ other := by
              rintro rfl
              exact (List.nodup_cons.mp distinct).1 (findMember_mem found)
            simp [List.idxOf_cons_ne _ different]
      unfold findMember
      rw [← same]
      cases caseSensitive with
      | true =>
          cases named : item.string with
          | none =>
              -- a nameless member ends the search, and is not found
              simp [CJson.getObjectItem, List.findIdx?_cons, named]
          | some string =>
              by_cases equal : compareBy id string name = 0
              · simp [CJson.getObjectItem, List.findIdx?_cons, named, equal, caseFold]
              · simp only [caseFold, if_true, if_neg equal, step]
                exact findIdx?_skip _ (by simp [named, equal]) child
      | false =>
          cases named : item.string with
          | none =>
              simp only [Bool.false_eq_true, if_false, step]
              exact findIdx?_skip _ (by simp [named, caseInsensitiveStrcmp]) child
          | some string =>
              have either := compareBy_comm_zero (keepsTerminator_caseFold false) string name
              by_cases equal : compareBy (caseFold false) string name = 0
              · have hit : compareBy toAsciiLowercase name string = 0 := either.mp equal
                simp [CJson.getObjectItem, List.findIdx?_cons, named, equal, caseInsensitiveStrcmp, hit]
              · have misses : ¬ compareBy toAsciiLowercase name string = 0 := fun hit => equal (either.mpr hit)
                simp only [if_neg equal, step]
                exact findIdx?_skip _ (by simp [named, caseInsensitiveStrcmp, misses]) child

theorem Shows.getObjectItem {place : Addr} {own : Item} (shows : Shows fieldsOf forest place own) (name : Bytes)
    (caseSensitive : Bool) : CJson.getObjectItem own name caseSensitive =
      (findMember fieldsOf name caseSensitive (forest.children place)).map (forest.children place).idxOf := by
  rcases own with ⟨fields, child, headPrev⟩
  apply findMember_positions (forest.distinct place)
  apply (shows_iff.mp shows).2.2.imp_mem
  intro node _ item shows
  rw [Item.string, (shows_iff.mp shows).1]

/-- The child at an index is at this place in the tree. -/
theorem Shows.atIndex {place : Addr} {own : Item} (shows : Shows fieldsOf forest place own) {which : Int}
    (index : ¬ which < 0) :
    (if which.toNat < own.child.length then some which.toNat else none) =
      (Heap.atIndex forest which place).map (forest.children place).idxOf := by
  have each := (shows_iff.mp shows).2.2
  rw [Heap.atIndex, if_neg index, ← each.length_eq]
  by_cases short : which.toNat < (forest.children place).length
  · rw [if_pos short, List.getElem?_eq_getElem short, Option.map_some,
      (forest.distinct place).idxOf_getElem which.toNat short]
  · rw [if_neg short, List.getElem?_eq_none (Nat.le_of_not_lt short)]
    rfl

/-! ## What calls do to the shelf -/

/-- An item is put into a list: it leaves the shelf.  The tree that contains the list
is exchanged for what `join` makes of it, and where an argument is NULL nothing
happens. -/
def Hangs (forest : OrderedForest Addr) (shelf shelf' : Shelf) (container item : Pointer)
    (join : Item -> Item -> Option Item) (outcome : Outcome) : Prop :=
  match container, item with
  | some place, some node => outcome = .flag true ∧ ∃ own added changed, Own forest shelf place own ∧
      shelf node = some added ∧ join own added = some changed ∧
        Rewritten forest (Function.update shelf node none) place changed shelf'
  | _, _ => outcome = .flag false ∧ shelf' = shelf

/-- A child is taken out of its list: it is on the shelf now, under its own address.
Which child that is and what is left is told by `take`. -/
def TakesOut (forest : OrderedForest Addr) (shelf shelf' : Shelf) (container : Pointer)
    (take : Addr -> Item -> Option (Item × Item)) (outcome : Outcome) : Prop :=
  match container with
  | none => outcome = .node none ∧ shelf' = shelf
  | some place => ∃ own, Own forest shelf place own ∧
      match take place own with
      | none => outcome = .node none ∧ shelf' = shelf
      | some (detached, remaining) => ∃ node without, outcome = .node (some node) ∧
          Rewritten forest shelf place remaining without ∧
            shelf' = Function.update without node (some detached)

/-- A child is taken out of its list and deleted.  It is as if it had been taken out,
but that it does not come to the shelf. -/
def ThrowsOut (forest : OrderedForest Addr) (shelf shelf' : Shelf) (container : Pointer)
    (take : Addr -> Item -> Option (Item × Item)) (outcome : Outcome) : Prop :=
  outcome = .nothing ∧
    match container with
    | none => shelf' = shelf
    | some place => ∃ own, Own forest shelf place own ∧
        match take place own with
        | none => shelf' = shelf
        | some (_, remaining) => Rewritten forest shelf place remaining shelf'

/-- A child gives way to an item, which leaves the shelf.  The child is deleted, and
where there is none nothing happens. -/
def GivesWay (forest : OrderedForest Addr) (shelf shelf' : Shelf) (container item : Pointer)
    (exchange : Addr -> Item -> Item -> Option Item) (outcome : Outcome) : Prop :=
  match container, item with
  | some place, some node => ∃ own added, Own forest shelf place own ∧ shelf node = some added ∧
      match exchange place own added with
      | none => outcome = .flag false ∧ shelf' = shelf
      | some changed => outcome = .flag true ∧
          Rewritten forest (Function.update shelf node none) place changed shelf'
  | _, _ => outcome = .flag false ∧ shelf' = shelf

section Swapping

variable {shelf : Shelf} {list : List Addr} {joined left : Pointer} {gone : Addr -> Prop} {place node : Addr}

theorem Swaps.of_adds {position : Nat} (holds : forest.CanHold place node)
    (fits : position ≤ (forest.children place).length)
    (edits : Edits forest forest' place ((forest.children place).insertIdx position node) fun _ => False) :
    Swaps forest forest' place ((forest.children place).insertIdx position node) (some node) none fun _ => False where
  edits := edits
  isLive := holds.isLive
  members other := by
    rw [List.mem_insertIdx fits]
    simp [eq_comm]
  joins other same := by
    cases same
    exact holds
  leaves _ impossible := nomatch impossible
  gone _ impossible := impossible.elim

theorem Swaps.of_takes (isChild : node ∈ forest.children place)
    (edits : Edits forest forest' place ((forest.children place).erase node) fun _ => False) :
    Swaps forest forest' place ((forest.children place).erase node) none (some node) fun _ => False where
  edits := edits
  isLive := (forest.closed isChild).2
  members other := by
    rw [(forest.distinct place).mem_erase_iff]
    simp [and_comm, eq_comm]
  joins _ impossible := nomatch impossible
  leaves other same := by
    cases same
    exact isChild
  gone _ impossible := impossible.elim

theorem Swaps.of_drops (isChild : node ∈ forest.children place)
    (edits : Edits forest forest' place ((forest.children place).erase node) (forest.Below node)) :
    Swaps forest forest' place ((forest.children place).erase node) none (some node) (forest.Below node) where
  edits := edits
  isLive := (forest.closed isChild).2
  members other := by
    rw [(forest.distinct place).mem_erase_iff]
    simp [and_comm, eq_comm]
  joins _ impossible := nomatch impossible
  leaves other same := by
    cases same
    exact isChild
  gone _ below := ⟨node, rfl, below, fun _ => id⟩

theorem Swaps.of_replaces {new : Addr} (holds : forest.CanHold place new) (isChild : node ∈ forest.children place)
    (edits : Edits forest forest' place
      ((forest.children place).set ((forest.children place).idxOf node) new) (forest.Below node)) :
    Swaps forest forest' place ((forest.children place).set ((forest.children place).idxOf node) new) (some new)
      (some node) (forest.Below node) where
  edits := edits
  isLive := holds.isLive
  members other := by
    rcases List.append_of_mem isChild with ⟨front, back, split⟩
    have distinct := forest.distinct place
    rw [split] at distinct
    have outside : node ∉ front ∧ node ∉ back := by
      rw [List.nodup_middle, List.nodup_cons, List.mem_append, not_or] at distinct
      exact distinct.1
    rw [split, List.idxOf_append_of_notMem outside.1, List.idxOf_cons_self, Nat.add_zero,
      List.set_append_right _ _ le_rfl, Nat.sub_self, List.set_cons_zero]
    constructor
    · intro inside
      rcases List.mem_append.mp inside with before | behind
      · refine Or.inr ⟨List.mem_append_left _ before, ?_⟩
        rintro ⟨⟩
        exact outside.1 before
      · rcases List.mem_cons.mp behind with rfl | behind
        · exact Or.inl rfl
        · refine Or.inr ⟨List.mem_append_right _ (List.mem_cons_of_mem _ behind), ?_⟩
          rintro ⟨⟩
          exact outside.2 behind
    · rintro (same | ⟨inside, different⟩)
      · cases same
        exact List.mem_append_right _ List.mem_cons_self
      · rcases List.mem_append.mp inside with before | behind
        · exact List.mem_append_left _ before
        · rcases List.mem_cons.mp behind with rfl | behind
          · exact absurd rfl different
          · exact List.mem_append_right _ (List.mem_cons_of_mem _ behind)
  joins other same := by
    cases same
    exact holds
  leaves other same := by
    cases same
    exact isChild
  gone _ below := ⟨node, rfl, below, fun _ => id⟩

end Swapping

/-- Fields that have not changed are of no matter. -/
theorem Holds.congr {shelf : Shelf} (holds : Holds fieldsOf forest shelf)
    (same : ∀ node ∈ forest.live, later node = fieldsOf node) : Holds later forest shelf := by
  refine ⟨holds.roots, ?_⟩
  intro node tree held
  apply (holds.shows node tree held).congr
  intro lower below
  have isRoot := (holds.roots node).mp (by rw [held]; rfl)
  exact ⟨rfl, same lower (below.live isRoot.1)⟩

theorem Holds.not_child {shelf : Shelf} {node place : Addr} (holds : Holds fieldsOf forest shelf)
    (isChild : node ∈ forest.children place) : shelf node = none := by
  rw [← Option.not_isSome_iff_eq_none, holds.roots]
  exact fun isRoot => isRoot.2 place isChild

section Calls

variable {shelf : Shelf} {outcome : Outcome} {container item : Pointer}

/-- Behind the last child is the place that the length names. -/
theorem appends_eq : (fun (list : List Addr) node => list ++ [node]) =
    fun list node => list.insertIdx (id list.length) node := by
  funext list node
  rw [id, List.insertIdx_length_self]

theorem Holds.hangs (holds : Holds fieldsOf forest shelf) (finite : forest.live.Finite)
    (same : ∀ node ∈ forest.live, later node = fieldsOf node)
    (canHold : ∀ place node, container = some place -> item = some node -> forest.CanHold place node)
    {position : Nat -> Nat} (fits : ∀ length, position length ≤ length)
    (adds : Adds forest forest' container item (fun list node => list.insertIdx (position list.length) node) outcome)
    {join : Item -> Item -> Option Item} (joins : ∀ own added, Linked own.child own.headPrev -> join own added =
      some (own.withChildren (own.child.insertIdx (position own.child.length) added) (.at own.child.length))) :
    ∃ shelf', Holds later forest' shelf' ∧ Hangs forest shelf shelf' container item join outcome := by
  cases container with
  | none =>
      rcases adds with ⟨failed, rfl⟩
      exact ⟨shelf, holds.congr same, failed, rfl⟩
  | some place =>
      cases item with
      | none =>
          rcases adds with ⟨failed, rfl⟩
          exact ⟨shelf, holds.congr same, failed, rfl⟩
      | some node =>
          rcases adds with ⟨succeeds, edits⟩
          have may := canHold place node rfl rfl
          have swaps := Swaps.of_adds may (fits _) edits
          rcases holds.own finite may.isLive with ⟨root, path, tree, own, isRoot, held, leads, there, shows⟩
          rcases shows_iff.mp shows with ⟨fields, linked, each⟩
          rcases Option.isSome_iff_exists.mp ((holds.roots node).mpr may.root) with ⟨added, onShelf⟩
          have changes := joins own added linked
          have longer := each.insertIdx (holds.shows node added onShelf) (position own.child.length)
          rw [← each.length_eq] at changes longer
          have closed : Linked (own.child.insertIdx (position (forest.children place).length) added)
              (.at (forest.children place).length) := by
            intro _
            rw [List.length_insertIdx, if_pos (by rw [← each.length_eq]; exact fits _), each.length_eq]
            rfl
          rcases swaps.holds holds (fun other isLive _ => same other isLive) closed longer isRoot held leads none
            (fun _ impossible => nomatch impossible) with ⟨final, modified, holds'⟩
          have apart : root ≠ node := by
            rintro rfl
            exact may.apart (below_of_at? leads)
          refine ⟨_, holds', succeeds, own, added, _, ⟨root, path, tree, held, leads, there⟩, onShelf, changes,
            root, path, tree, final, ?_, leads, ?_, ?_⟩
          · rw [Function.update_of_ne apart, held]
          · rw [Item.withChildren, fields, ← same place may.isLive]
            exact modified
          · funext other
            by_cases isRoot : other = root
            · simp [isRoot]
            · by_cases isNode : node = other
              · simp [← isNode, apart.symm]
              · simp [isRoot, isNode, Ne.symm isNode]

/-- The child that has been found, in the tree. -/
theorem Shows.child {place node : Addr} {own : Item} (shows : Shows fieldsOf forest place own)
    (isChild : node ∈ forest.children place) : ∃ detached,
      own.child[(forest.children place).idxOf node]? = some detached ∧ Shows fieldsOf forest node detached := by
  have there : (forest.children place)[(forest.children place).idxOf node]? = some node :=
    List.getElem?_idxOf isChild
  exact (shows_iff.mp shows).2.2.getElem? there

theorem Holds.takesOut (holds : Holds fieldsOf forest shelf) (finite : forest.live.Finite)
    (same : ∀ node ∈ forest.live, later node = fieldsOf node) {find : Addr -> Option Addr}
    (isLive : ∀ place, container = some place -> place ∈ forest.live)
    (isChild : ∀ place node, container = some place -> find place = some node -> node ∈ forest.children place)
    (takes : Takes forest forest' container find outcome) {take : Addr -> Item -> Option (Item × Item)}
    (searches : ∀ place own, container = some place -> Shows fieldsOf forest place own -> take place own =
      (find place).bind fun node => CJson.cjsonDetachItemViaPointer own ((forest.children place).idxOf node)) :
    ∃ shelf', Holds later forest' shelf' ∧ TakesOut forest shelf shelf' container take outcome := by
  cases container with
  | none =>
      rcases takes with ⟨nothing, rfl⟩
      exact ⟨shelf, holds.congr same, nothing, rfl⟩
  | some place =>
      rcases holds.own finite (isLive place rfl) with ⟨root, path, tree, own, isRoot, held, leads, there, shows⟩
      have taken := searches place own rfl shows
      unfold Takes at takes
      cases found : find place with
      | none =>
          rw [found] at taken
          simp only [found] at takes
          rcases takes with ⟨nothing, rfl⟩
          refine ⟨shelf, holds.congr same, own, ⟨root, path, tree, held, leads, there⟩, ?_⟩
          rw [taken]
          exact ⟨nothing, rfl⟩
      | some node =>
          rw [found, Option.bind_some] at taken
          simp only [found] at takes
          rcases takes with ⟨returns, edits⟩
          have inside := isChild place node rfl found
          rcases shows_iff.mp shows with ⟨fields, linked, each⟩
          rcases shows.child inside with ⟨detached, isDetached, showsDetached⟩
          rcases detach_linked linked isDetached with ⟨headPrev, detaches, closed⟩
          have shorter := each.eraseIdx ((forest.children place).idxOf node)
          rw [← List.erase_eq_eraseIdx_of_idxOf rfl] at shorter
          rcases (Swaps.of_takes inside edits).holds holds (fun other isLive _ => same other isLive)
            closed shorter isRoot held leads (some detached)
            (by
              rintro other ⟨⟩
              exact ⟨by simp, fun _ is => Option.some.inj is ▸ showsDetached⟩) with ⟨final, modified, holds'⟩
          have apart : root ≠ node := by
            rintro rfl
            exact isRoot.2 place inside
          refine ⟨_, holds', own, ⟨root, path, tree, held, leads, there⟩, ?_⟩
          rw [taken, detaches]
          refine ⟨node, _, returns, ⟨root, path, tree, final, held, leads, ?_, rfl⟩, ?_⟩
          · rw [Item.withChildren, fields, ← same place (isLive place rfl)]
            exact modified
          · funext other
            by_cases isNode : node = other
            · simp [← isNode, apart.symm]
            · by_cases isRoot : other = root
              · simp [isRoot, apart]
              · simp [isRoot, isNode, Ne.symm isNode]

theorem Holds.throwsOut (holds : Holds fieldsOf forest shelf) (finite : forest.live.Finite)
    (same : ∀ node ∈ forest.live, later node = fieldsOf node) {find : Addr -> Option Addr}
    (isLive : ∀ place, container = some place -> place ∈ forest.live)
    (isChild : ∀ place node, container = some place -> find place = some node -> node ∈ forest.children place)
    (drops : Drops forest forest' container find outcome) {take : Addr -> Item -> Option (Item × Item)}
    (searches : ∀ place own, container = some place -> Shows fieldsOf forest place own -> take place own =
      (find place).bind fun node => CJson.cjsonDetachItemViaPointer own ((forest.children place).idxOf node)) :
    ∃ shelf', Holds later forest' shelf' ∧ ThrowsOut forest shelf shelf' container take outcome := by
  cases container with
  | none =>
      rcases drops with ⟨nothing, rfl⟩
      exact ⟨shelf, holds.congr same, nothing, rfl⟩
  | some place =>
      rcases holds.own finite (isLive place rfl) with ⟨root, path, tree, own, isRoot, held, leads, there, shows⟩
      have taken := searches place own rfl shows
      rcases drops with ⟨nothing, drops⟩
      cases found : find place with
      | none =>
          rw [found] at taken
          simp only [found] at drops
          subst drops
          refine ⟨shelf, holds.congr same, nothing, own, ⟨root, path, tree, held, leads, there⟩, ?_⟩
          rw [taken]
          rfl
      | some node =>
          rw [found, Option.bind_some] at taken
          simp only [found] at drops
          have inside := isChild place node rfl found
          rcases shows_iff.mp shows with ⟨fields, linked, each⟩
          rcases shows.child inside with ⟨detached, isDetached, _⟩
          rcases detach_linked linked isDetached with ⟨headPrev, detaches, closed⟩
          have shorter := each.eraseIdx ((forest.children place).idxOf node)
          rw [← List.erase_eq_eraseIdx_of_idxOf rfl] at shorter
          rcases (Swaps.of_drops inside drops).holds holds (fun other isLive _ => same other isLive)
            closed shorter isRoot held leads none
            (by
              rintro other ⟨⟩
              exact ⟨by simp [Below.refl], fun _ impossible => nomatch impossible⟩) with ⟨final, modified, holds'⟩
          refine ⟨_, holds', nothing, own, ⟨root, path, tree, held, leads, there⟩, ?_⟩
          rw [taken, detaches]
          refine ⟨root, path, tree, final, held, leads, ?_, ?_⟩
          · rw [Item.withChildren, fields, ← same place (isLive place rfl)]
            exact modified
          · funext other
            by_cases isRoot : other = root
            · simp [isRoot]
            · by_cases isNode : node = other
              · simp [isRoot, isNode, holds.not_child (isNode ▸ inside)]
              · simp [isRoot, isNode]

theorem Holds.givesWay (holds : Holds fieldsOf forest shelf) (finite : forest.live.Finite)
    (same : ∀ node ∈ forest.live, later node = fieldsOf node) {find : Addr -> Option Addr}
    (isLive : ∀ place, container = some place -> place ∈ forest.live)
    (canHold : ∀ place node, container = some place -> item = some node -> forest.CanHold place node)
    (isChild : ∀ place node, container = some place -> find place = some node -> node ∈ forest.children place)
    (replaces : Replaces forest forest' container find item outcome)
    {exchange : Addr -> Item -> Item -> Option Item}
    (searches : ∀ place own added, container = some place -> Shows fieldsOf forest place own ->
      exchange place own added = (find place).bind fun node =>
        CJson.cjsonReplaceItemViaPointer own ((forest.children place).idxOf node) added) :
    ∃ shelf', Holds later forest' shelf' ∧ GivesWay forest shelf shelf' container item exchange outcome := by
  cases container with
  | none =>
      rcases replaces with ⟨failed, rfl⟩
      exact ⟨shelf, holds.congr same, failed, rfl⟩
  | some place =>
      cases item with
      | none =>
          rcases replaces with ⟨failed, rfl⟩
          exact ⟨shelf, holds.congr same, failed, rfl⟩
      | some new =>
          have may := canHold place new rfl rfl
          rcases holds.own finite (isLive place rfl) with ⟨root, path, tree, own, isRoot, held, leads, there, shows⟩
          rcases Option.isSome_iff_exists.mp ((holds.roots new).mpr may.root) with ⟨added, onShelf⟩
          have exchanged := searches place own added rfl shows
          unfold Replaces at replaces
          cases found : find place with
          | none =>
              rw [found] at exchanged
              simp only [found] at replaces
              rcases replaces with ⟨failed, rfl⟩
              refine ⟨shelf, holds.congr same, own, added, ⟨root, path, tree, held, leads, there⟩, onShelf, ?_⟩
              rw [exchanged]
              exact ⟨failed, rfl⟩
          | some node =>
              rw [found, Option.bind_some] at exchanged
              simp only [found] at replaces
              rcases replaces with ⟨succeeds, edits⟩
              have inside := isChild place node rfl found
              rcases shows_iff.mp shows with ⟨fields, linked, each⟩
              have short : (forest.children place).idxOf node < own.child.length := by
                rw [← each.length_eq]
                exact List.idxOf_lt_length_of_mem inside
              have changes := replace_linked added linked short
              have row := each.set (holds.shows new added onShelf) ((forest.children place).idxOf node)
              have closed : Linked (own.child.set ((forest.children place).idxOf node) added)
                  (.at (own.child.length - 1)) := by
                intro _
                rw [List.length_set]
              rcases (Swaps.of_replaces may inside edits).holds holds (fun other isLive _ => same other isLive)
                closed row isRoot held leads none
                (by
                  rintro other ⟨⟩
                  exact ⟨by simp [Below.refl], fun _ impossible => nomatch impossible⟩) with ⟨final, modified, holds'⟩
              have apart : root ≠ new := by
                rintro rfl
                exact may.apart (below_of_at? leads)
              refine ⟨_, holds', own, added, ⟨root, path, tree, held, leads, there⟩, onShelf, ?_⟩
              rw [exchanged, changes]
              refine ⟨succeeds, root, path, tree, final, ?_, leads, ?_, ?_⟩
              · rw [Function.update_of_ne apart, held]
              · rw [Item.withChildren, fields, ← same place may.isLive]
                exact modified
              · funext other
                by_cases isRoot : other = root
                · simp [isRoot]
                · by_cases isNew : new = other
                  · simp [← isNew, apart.symm]
                  · by_cases isNode : node = other
                    · simp [isRoot, isNew, Ne.symm isNew, isNode, holds.not_child (isNode ▸ inside)]
                    · simp [isRoot, isNew, Ne.symm isNew, isNode]

end Calls

/-- A new tree on the shelf, or nothing. -/
def Lays (shelf shelf' : Shelf) (built : Item -> Prop) (outcome : Outcome) : Prop :=
  (outcome = .node none ∧ shelf' = shelf) ∨
    ∃ top tree, built tree ∧ outcome = .node (some top) ∧ shelf top = none ∧
      shelf' = Function.update shelf top (some tree)

/-- What `cjson_create_number` makes. -/
def numberLeaf (num : Binary64) : Item :=
  leaf { type_ := { base := .number }, valuedouble := num, valueint := saturate num }

/-- What `cjson_create_string` and `cjson_create_raw` make. -/
def IsText (base : BaseType) (string : Option Bytes) (tree : Item) : Prop :=
  ∃ text, string = some text ∧ tree = leaf { type_ := { base := base }, valuestring := some (cjsonStrdup text) }

/-- The trees that a constructor makes when it gets its memory: leaves with the given
content, arrays of leaves, the tree of a text, and the copy of a tree that is there.
The other calls build nothing. -/
def Operation.Builds (library : CLibrary) (heap : Heap) (forest : OrderedForest Addr) (shelf : Shelf) :
    Operation -> Item -> Prop
  | .createNull, tree => tree = leaf { type_ := { base := .null } }
  | .createTrue, tree => tree = leaf { type_ := { base := .true } }
  | .createFalse, tree => tree = leaf { type_ := { base := .false } }
  | .createBool boolean, tree => tree = leaf { type_ := { base := if boolean then .true else .false } }
  | .createNumber num, tree => tree = numberLeaf num
  | .createString string, tree => IsText .string string tree
  | .createRaw raw, tree => IsText .raw raw tree
  | .createStringReference string, tree =>
      tree = leaf { type_ := { base := .string, isReference := true }, valuestring := string }
  | .createArray, tree => tree = leaf { type_ := { base := .array } }
  | .createObject, tree => tree = leaf { type_ := { base := .object } }
  | .createIntArray numbers, tree => tree =
      branch { type_ := { base := .array } } ((numbers.map Binary64.ofInt).map numberLeaf)
  | .createDoubleArray numbers, tree => tree = branch { type_ := { base := .array } } (numbers.map numberLeaf)
  | .createStringArray strings, tree => ∃ children, List.Forall₂ (IsText .string) strings children ∧
      tree = branch { type_ := { base := .array } } children
  | .parse value _, tree => CJson.cjsonParse library heap.hooks value = .ok (some tree)
  | .duplicate (some item) recurse, tree => ∃ own, Own forest shelf item own ∧ copyOf recurse own 0 = some tree
  | _, _ => False

/-- What a call does to the trees, told by the functions on trees.  Each clause names
the trees on the shelf that the call takes away and those that it puts there instead;
a call that is refused leaves the shelf alone. -/
def Operation.Rearranges (library : CLibrary) (heap : Heap) (forest : OrderedForest Addr) (shelf shelf' : Shelf)
    (outcome : Outcome) : Operation -> Prop
  | .addItemToArray array item => Hangs forest shelf shelf' array item CJson.addItemToArray outcome
  | .addItemToObject _ none _ _ => outcome = .flag false ∧ shelf' = shelf
  | .addItemToObject object (some string) item constantKey =>
      if constantKey || heap.copyGranted string.bytes then
        Hangs forest shelf shelf' object item (fun object item =>
          if constantKey then cjsonAddItemToObjectCS object string.bytes item
          else cjsonAddItemToObject object string.bytes item) outcome
      else outcome = .flag false ∧ shelf' = shelf
  | .insertItemInArray array which newitem =>
      if which < 0 then outcome = .flag false ∧ shelf' = shelf
      else Hangs forest shelf shelf' array newitem
        (fun array item => CJson.cjsonInsertItemInArray array which item) outcome
  | .detachItemViaPointer parent item =>
      TakesOut forest shelf shelf' parent (fun place own => item.bind fun node =>
        CJson.cjsonDetachItemViaPointer own ((forest.children place).idxOf node)) outcome
  | .detachItemFromArray array which =>
      TakesOut forest shelf shelf' array (fun _ own => CJson.cjsonDetachItemFromArray own which) outcome
  | .detachItemFromObject object string caseSensitive =>
      TakesOut forest shelf shelf' object (fun _ own => (string.bind fun name =>
        CJson.getObjectItem own name caseSensitive).bind (CJson.cjsonDetachItemViaPointer own)) outcome
  | .delete none => outcome = .nothing ∧ shelf' = shelf
  | .delete (some node) => outcome = .nothing ∧ shelf' = Function.update shelf node none
  | .deleteItemFromArray array which =>
      ThrowsOut forest shelf shelf' array (fun _ own => CJson.cjsonDetachItemFromArray own which) outcome
  | .deleteItemFromObject object string caseSensitive =>
      ThrowsOut forest shelf shelf' object (fun _ own => (string.bind fun name =>
        CJson.getObjectItem own name caseSensitive).bind (CJson.cjsonDetachItemViaPointer own)) outcome
  | .replaceItemViaPointer parent item replacement =>
      GivesWay forest shelf shelf' parent replacement (fun place own added => item.bind fun node =>
        CJson.cjsonReplaceItemViaPointer own ((forest.children place).idxOf node) added) outcome
  | .replaceItemInArray array which newitem =>
      GivesWay forest shelf shelf' array newitem
        (fun _ own added => CJson.cjsonReplaceItemInArray own which added) outcome
  | .replaceItemInObject _ none _ _ | .replaceItemInObject _ _ none _ => outcome = .flag false ∧ shelf' = shelf
  | .replaceItemInObject object (some string) (some replacement) caseSensitive =>
      -- whether there is a member to replace or not, the replacement is named, and
      -- without an object it may be a child of something
      ∃ own named, Own forest shelf replacement own ∧
        if heap.copyGranted string.bytes then
          Rewritten forest shelf replacement (own.withFields { own.fields with
              string := some (cjsonStrdup string.bytes)
              type_ := { own.fields.type_ with stringIsConst := false } }) named ∧
            GivesWay forest named shelf' object (some replacement)
              (fun _ own new => (CJson.getObjectItem own string.bytes caseSensitive).bind fun position =>
                CJson.cjsonReplaceItemViaPointer own position new) outcome
        else Rewritten forest shelf replacement (own.withFields { own.fields with string := none }) named ∧
          outcome = .flag false ∧ shelf' = named
  | .duplicate none _ => outcome = .node none ∧ shelf' = shelf
  | constructor => Lays shelf shelf' (constructor.Builds library heap forest shelf) outcome

section Steps

variable {library : CLibrary} {heap after : Heap} {shelf : Shelf} {outcome : Outcome}

theorem Represents.finite (draws : heap.Draws forest) : forest.live.Finite :=
  (Set.finite_lt_nat heap.unused).subset draws.bounded

/-- A new tree is a new root. -/
theorem Grown.isRoot_iff {result : Pointer} (grown : forest.Grown forest' result) (node : Addr) :
    forest'.IsRoot node ↔ forest.IsRoot node ∨ result = some node := by
  constructor
  · rintro ⟨isLive, orphan⟩
    rcases (grown.live node).mp isLive with old | ⟨top, same, below⟩
    · refine Or.inl ⟨old, ?_⟩
      intro parent isChild
      exact orphan parent (by rwa [grown.children parent (forest.closed isChild).2])
    · rcases Relation.ReflTransGen.cases_head below with equal | ⟨parent, isChild, _⟩
      · exact Or.inr (equal ▸ same)
      · exact absurd isChild (orphan parent)
  · rintro (⟨isLive, orphan⟩ | same)
    · refine ⟨grown.mono isLive, ?_⟩
      intro parent isChild
      rcases (grown.live parent).mp (forest'.closed isChild).2 with old | ⟨top, same, below⟩
      · rw [grown.children parent old] at isChild
        exact orphan parent isChild
      · exact grown.new top node same (below.step isChild) isLive
    · exact grown.root node same

theorem Grows.lays {run : Nat -> Except MemoryFault (Pointer × Heap)} {built : Item -> Prop}
    (grows : Settles run (Grows heap forest (fun _ => .closed) built)) (holds : Holds heap.fieldsOf forest shelf) :
    Settles (fun fuel => Heap.returnNode (run fuel)) fun result => ∃ forest' shelf',
      result.2.Draws forest' ∧ Holds result.2.fieldsOf forest' shelf' ∧
        (∃ pointer, result.1 = .node pointer ∧ forest.Grown forest' pointer) ∧ Lays shelf shelf' built result.1 := by
  unfold Heap.returnNode
  apply Settles.bind grows
  rintro ⟨pointer, after⟩ ⟨larger, made, trees⟩
  apply Settles.ok
  have stays : ∀ node tree, shelf node = some tree -> Shows after.fieldsOf larger node tree := by
    intro node tree held
    have isRoot := (holds.roots node).mp (by rw [held]; rfl)
    exact (holds.shows node tree held).made isRoot.1 made
  cases pointer with
  | none =>
      have same := made.grown.eq_of_none
      rw [same] at stays
      exact ⟨larger, shelf, made.represents, ⟨by rw [same]; exact holds.roots, by rw [same]; exact stays⟩,
        ⟨none, rfl, made.grown⟩, Or.inl ⟨rfl, rfl⟩⟩
  | some top =>
      rcases trees top rfl with ⟨tree, isBuilt, shows⟩
      have free : shelf top = none := by
        rw [← Option.not_isSome_iff_eq_none, holds.roots]
        exact fun isRoot => made.grown.new top top rfl .refl isRoot.1
      refine ⟨larger, Function.update shelf top (some tree), made.represents, ⟨?_, ?_⟩, ⟨some top, rfl, made.grown⟩,
        Or.inr ⟨top, tree, isBuilt, rfl, free, rfl⟩⟩
      · intro node
        rw [Grown.isRoot_iff made.grown]
        by_cases same : node = top
        · simp [same]
        · have other : some top ≠ some node := fun equal => same (Option.some.inj equal).symm
          simp [Function.update_of_ne same, holds.roots, other]
      · intro node item held
        by_cases same : node = top
        · subst same
          rw [Function.update_self] at held
          cases held
          exact shows
        · rw [Function.update_of_ne same] at held
          exact stays node item held

end Steps

end Heap
end CJson
