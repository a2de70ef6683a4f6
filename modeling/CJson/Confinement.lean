import CJson.HeapPatch

/-!
# Writes that stay within a set of nodes

A call that is given pointers into some set of nodes, closed under following links,
stays in this set: it writes to these nodes and to new ones, and what it returns
leads there again.  One node outside of the set, whose children are inside, is the
root of the document that is patched: only its `child` is written.
-/

namespace CJson
namespace Heap

/-- NULL, or a pointer into a set of nodes.  Every pointer that a function follows is
one of these as long as the set is closed, and so the function cannot get out of it. -/
def Into (region : Set Addr) (pointer : Pointer) : Prop := ∀ node, pointer = some node -> node ∈ region

theorem into_none {region : Set Addr} : Into region none := fun _ impossible => nomatch impossible

theorem into_some {region : Set Addr} {node : Addr} : Into region (some node) ↔ node ∈ region :=
  ⟨fun into => into node rfl, fun inside _ same => Option.some.inj same ▸ inside⟩

/-- The links of the nodes in a set stay there, and so do those to the children of the
root, which is outside.  The set is the territory of a document without its root; the
root is apart because its own links belong to the list that it is a member of.
Addresses that have not been handed out are inside, so that new nodes are, too. -/
structure Closed (region : Set Addr) (root : Addr) (heap : Heap) : Prop where
  used : ∀ node, heap.allocated node = true -> node < heap.unused
  fresh : ∀ node, heap.unused ≤ node -> node ∈ region
  outside : root ∉ region
  nextInto : ∀ node ∈ region, heap.allocated node = true -> Into region (heap.links.next node)
  prevInto : ∀ node ∈ region, heap.allocated node = true -> Into region (heap.links.prev node)
  childInto : ∀ node ∈ insert root region, heap.allocated node = true -> Into region (heap.childOf node)

/-- Since `base`, nothing has been written outside of the set but the root's `child`.
It is the invariant of a run of patches: every function that is given pointers into
the set keeps it, whatever it does inside. -/
structure Confined (region : Set Addr) (root : Addr) (base heap : Heap) : Prop extends
    Closed region root heap where
  sameNext : ∀ node ∉ region, heap.links.next node = base.links.next node
  samePrev : ∀ node ∉ region, heap.links.prev node = base.links.prev node
  sameChild : ∀ node ∉ insert root region, heap.childOf node = base.childOf node
  sameFields : ∀ node ∉ region, heap.fieldsOf node = base.fieldsOf node

variable {region : Set Addr} {root : Addr} {base heap : Heap} {node target : Pointer} {caseSensitive : Bool}
  {fuel : Nat}

/-- At the start of a run nothing has been written yet.  From here on the two heaps
drift apart, and `base` stays what it is. -/
theorem Closed.confined (closed : Closed region root heap) : Confined region root heap heap :=
  ⟨closed, fun _ _ => rfl, fun _ _ => rfl, fun _ _ => rfl, fun _ _ => rfl⟩

theorem Into.insert (into : Into region node) : Into (insert root region) node :=
  fun _ same => Set.mem_insert_of_mem _ (into _ same)

/-- An access that succeeds was one of a node that is there.  Together with the
closedness of the set this is all that is needed of a read. -/
theorem access_ensures : Ensures (heap.access node) fun addr => node = some addr ∧ heap.allocated addr = true := by
  cases node with
  | none => exact .error
  | some addr => exact .ite (fun live => ⟨rfl, live⟩) (fun _ => .error)

/-- There is no copy of NULL. -/
theorem cjsonDuplicate_none {after : Heap} {copy : Addr} :
    heap.cjsonDuplicate fuel none true ≠ .ok (some copy, after) := by
  cases fuel <;> simp [cjsonDuplicate, duplicateRec]

/-! ## Reads and writes -/

namespace Confined

/-- A pointer that is read from a node of the set leads into the set again.  The same
holds of the two other links. -/
theorem next (confined : Confined region root base heap) (inside : Into region node) :
    Ensures (heap.next node) (Into region) := by
  apply access_ensures.bind
  rintro addr ⟨rfl, live⟩
  exact confined.nextInto addr (inside addr rfl) live

theorem prev (confined : Confined region root base heap) (inside : Into region node) :
    Ensures (heap.prev node) (Into region) := by
  apply access_ensures.bind
  rintro addr ⟨rfl, live⟩
  exact confined.prevInto addr (inside addr rfl) live

/-- The children of the root are in the set although the root is not, and so `child`
may be read of either. -/
theorem child (confined : Confined region root base heap) (inside : Into (insert root region) node) :
    Ensures (heap.child node) (Into region) := by
  apply access_ensures.bind
  rintro addr ⟨rfl, live⟩
  exact confined.childInto addr (inside addr rfl) live

/-- A link is written to a node of the set, and leads into it: nothing outside has
changed, and the set is still closed. -/
theorem setNext (confined : Confined region root base heap) (inside : Into region node)
    (within : Into region target) : Ensures (heap.setNext node target) (Confined region root base) := by
  apply access_ensures.bind
  rintro addr ⟨rfl, live⟩
  have addrInside := inside addr rfl
  refine { confined with nextInto := ?_, sameNext := ?_ }
  · intro other otherInside otherLive
    rw [withLinks_links, Links.setNext_next]
    split
    · exact within
    · exact confined.nextInto other otherInside otherLive
  · intro other outside
    have different : other ≠ addr := fun same => outside (same ▸ addrInside)
    rw [withLinks_links, Links.setNext_next, if_neg different, confined.sameNext other outside]

theorem setPrev (confined : Confined region root base heap) (inside : Into region node)
    (within : Into region target) : Ensures (heap.setPrev node target) (Confined region root base) := by
  apply access_ensures.bind
  rintro addr ⟨rfl, live⟩
  have addrInside := inside addr rfl
  refine { confined with prevInto := ?_, samePrev := ?_ }
  · intro other otherInside otherLive
    rw [withLinks_links, Links.setPrev_prev]
    split
    · exact within
    · exact confined.prevInto other otherInside otherLive
  · intro other outside
    have different : other ≠ addr := fun same => outside (same ▸ addrInside)
    rw [withLinks_links, Links.setPrev_prev, if_neg different, confined.samePrev other outside]

/-- The one field of the root that may be written.  Its own links belong to the list
that it is a member of and are left alone. -/
theorem setChild (confined : Confined region root base heap) (inside : Into (insert root region) node)
    (within : Into region target) : Ensures (heap.setChild node target) (Confined region root base) := by
  apply access_ensures.bind
  rintro addr ⟨rfl, live⟩
  have addrInside := inside addr rfl
  refine { confined with childInto := ?_, sameChild := ?_ }
  · intro other otherInside otherLive
    rw [withChild_childOf]
    split
    · exact within
    · exact confined.childInto other otherInside otherLive
  · intro other outside
    have different : other ≠ addr := fun same => outside (same ▸ addrInside)
    rw [withChild_childOf, if_neg different, confined.sameChild other outside]

/-- Fields do not lead anywhere.  What they are changed to does not matter, as long as
the node is in the set. -/
theorem setFields (confined : Confined region root base heap) (inside : Into region node)
    (change : Fields -> Fields) : Ensures (heap.setFields node change) (Confined region root base) := by
  apply access_ensures.bind
  rintro addr ⟨rfl, live⟩
  have addrInside := inside addr rfl
  refine { confined with sameFields := ?_ }
  intro other outside
  have different : other ≠ addr := fun same => outside (same ▸ addrInside)
  rw [withFields_fieldsOf, if_neg different, confined.sameFields other outside]

/-- The hooks are no part of the nodes, and a request alone changes nothing that is
confined. -/
theorem withHooks (confined : Confined region root base heap) (hooks : Hooks) :
    Confined region root base { heap with hooks := hooks } :=
  { confined with }

/-- The record is not part of the nodes. -/
theorem record (confined : Confined region root base heap) (releases : List Release) :
    Confined region root base (heap.record releases) :=
  { confined with }

theorem recordChild (confined : Confined region root base heap) (parent item : Pointer) :
    Confined region root base (heap.recordChild parent item) := by
  rcases heap.recordChild_eq parent item with ⟨releases, same⟩
  rw [same]
  exact confined.record releases

/-- Freed nodes are not followed any more. -/
theorem release (confined : Confined region root base heap) :
    Ensures (heap.release node) (Confined region root base) := by
  apply access_ensures.bind
  rintro addr ⟨rfl, live⟩
  have stays : ∀ other, Function.update heap.allocated addr false other = true -> heap.allocated other = true := by
    intro other otherLive
    rw [Function.update_apply] at otherLive
    split at otherLive
    · exact absurd otherLive Bool.false_ne_true
    · exact otherLive
  exact { confined with
    used := fun other otherLive => confined.used other (stays other otherLive)
    nextInto := fun other inside otherLive => confined.nextInto other inside (stays other otherLive)
    prevInto := fun other inside otherLive => confined.prevInto other inside (stays other otherLive)
    childInto := fun other inside otherLive => confined.childInto other inside (stays other otherLive) }

/-- A new node is inside. -/
theorem allocate (confined : Confined region root base heap) : Confined region root base heap.allocate := by
  have unusedInside := confined.fresh heap.unused le_rfl
  have apart : ∀ other ∉ region, other ≠ heap.unused := fun other outside same => outside (same ▸ unusedInside)
  have older : ∀ other, heap.allocate.allocated other = true -> other ≠ heap.unused ->
      heap.allocated other = true := by
    intro other live different
    simpa [Heap.allocate, different] using live
  constructor
  · constructor
    · intro other live
      by_cases new : other = heap.unused
      · exact new ▸ Nat.lt_succ_self _
      · exact Nat.lt_succ_of_lt (confined.used other (older other live new))
    · exact fun other later => confined.fresh other (Nat.le_of_succ_le later)
    · exact confined.outside
    · intro other inside live
      by_cases new : other = heap.unused
      · simpa [Heap.allocate, new] using into_none
      · simpa [Heap.allocate, new] using confined.nextInto other inside (older other live new)
    · intro other inside live
      by_cases new : other = heap.unused
      · simpa [Heap.allocate, new] using into_none
      · simpa [Heap.allocate, new] using confined.prevInto other inside (older other live new)
    · intro other inside live
      by_cases new : other = heap.unused
      · simpa [Heap.allocate, new] using into_none
      · simpa [Heap.allocate, new] using confined.childInto other inside (older other live new)
  · intro other outside
    simpa [Heap.allocate, apart other outside] using confined.sameNext other outside
  · intro other outside
    simpa [Heap.allocate, apart other outside] using confined.samePrev other outside
  · intro other outside
    have different := apart other (mt (Set.mem_insert_of_mem _) outside)
    simpa [Heap.allocate, different] using confined.sameChild other outside
  · intro other outside
    simpa [Heap.allocate, apart other outside] using confined.sameFields other outside

/-- A node that is asked for is inside, if there is one: addresses that have not been
handed out belong to the set from the start. -/
theorem newItem (confined : Confined region root base heap) :
    Confined region root base heap.newItem.2 ∧ Into region heap.newItem.1 := by
  rw [Heap.newItem]
  split
  · exact ⟨(confined.withHooks _).allocate, into_some.mpr (confined.fresh heap.unused le_rfl)⟩
  · exact ⟨confined.withHooks _, into_none⟩

/-! ## Lookups -/

theorem getArrayItemLoop (confined : Confined region root base heap) (inside : Into region node) (index : Nat) :
    Ensures (heap.getArrayItemLoop index node) (Into region) := by
  induction index generalizing node with
  | zero => exact .ok inside
  | succ index ih =>
      apply Ensures.ite
      · exact fun _ => .ok inside
      · intro _
        apply (confined.next inside).bind
        exact fun next into => ih into

/-- What is found in the list of a node of the set, or of the root, is in the set.  A
search only follows `next` from a child on. -/
theorem getArrayItem (confined : Confined region root base heap) (inside : Into (insert root region) node)
    (index : Nat) : Ensures (heap.getArrayItem node index) (Into region) := by
  apply Ensures.ite
  · exact fun _ => .ok into_none
  · intro _
    apply (confined.child inside).bind
    exact fun child into => confined.getArrayItemLoop into index

theorem getObjectItemLoop (confined : Confined region root base heap) (inside : Into region node) (name : Bytes) :
    Ensures (heap.getObjectItemLoop name caseSensitive fuel node) (Into region) := by
  induction fuel generalizing node with
  | zero => exact .error
  | succ fuel ih =>
      have turn : Ensures (heap.next node >>= heap.getObjectItemLoop name caseSensitive fuel) (Into region) :=
        (confined.next inside).bind fun next into => ih into
      apply Ensures.ite
      · exact fun _ => .ok into_none
      intro _
      apply Ensures.step
      intro fields
      split
      · apply Ensures.ite
        · exact fun _ => .ok into_none
        · exact fun _ => turn
      · apply Ensures.ite
        · exact fun _ => .ok inside
        · exact fun _ => turn

/-- The same of a search by name.  The names decide where it stops, and the links
where it can go. -/
theorem getObjectItem (confined : Confined region root base heap) (inside : Into (insert root region) node)
    (name : Option Bytes) : Ensures (heap.getObjectItem fuel node name caseSensitive) (Into region) := by
  unfold Heap.getObjectItem
  split
  · apply (confined.child inside).bind
    exact fun child into => confined.getObjectItemLoop into _
  · exact .ok into_none

theorem findMemberLoop (confined : Confined region root base heap) (inside : Into region node) (pointer : Bytes) :
    Ensures (heap.findMemberLoop pointer caseSensitive fuel node) (Into region) := by
  induction fuel generalizing node with
  | zero => exact .error
  | succ fuel ih =>
      apply Ensures.ite
      · exact fun _ => .ok inside
      intro _
      apply Ensures.step
      intro fields
      apply Ensures.ite
      · exact fun _ => .ok inside
      · intro _
        apply (confined.next inside).bind
        exact fun next into => ih into

/-- The walk along a pointer goes from a node to one of its children, token by token.
Only with no token left does it return the node that it began with, which may be the
root. -/
theorem followPointer (confined : Confined region root base heap) (inside : Into (insert root region) node)
    (pointer : Bytes) : Ensures (heap.followPointer caseSensitive fuel pointer node) (Into (insert root region)) := by
  induction fuel generalizing pointer node with
  | zero => exact .error
  | succ fuel ih =>
      apply Ensures.ite
      · intro _
        apply Ensures.step
        intro isArray
        apply Ensures.ite
        · intro _
          split
          · exact .ok into_none
          · apply (confined.getArrayItem inside _).bind
            exact fun element into => ih into.insert _
        · intro _
          apply Ensures.step
          intro isObject
          apply Ensures.ite
          · intro _
            apply (confined.child inside).bind
            intro child into
            apply (confined.findMemberLoop into _).bind
            exact fun member into => ih into.insert _
          · exact fun _ => .ok into_none
      · exact fun _ => .ok inside

/-- A pointer leads to the root or into the set. -/
theorem getItemFromPointer (confined : Confined region root base heap) (inside : Into (insert root region) node)
    (pointer : Option Bytes) :
    Ensures (heap.getItemFromPointer fuel node pointer caseSensitive) (Into (insert root region)) := by
  cases pointer with
  | none => exact .ok into_none
  | some pointer => exact confined.followPointer inside pointer

/-! ## Adding and detaching -/

variable {array item parent object value : Pointer}

/-- Two nodes of the set are linked to each other. -/
theorem suffixObject (confined : Confined region root base heap) (inside : Into region node)
    (within : Into region item) : Ensures (heap.suffixObject node item) (Confined region root base) := by
  apply (confined.setNext inside within).bind
  exact fun heap confined => confined.setPrev within inside

/-- An item of the set is put behind the children of a node.  The links that are
written are those of the item, of the first and the last child, and the `child` of the
node, which may be the root's. -/
theorem addItemToArray (confined : Confined region root base heap) (within : Into (insert root region) array)
    (inside : Into region item) :
    Ensures (heap.addItemToArray array item) fun result => Confined region root base result.2 := by
  apply Ensures.ite
  · exact fun _ => .ok confined
  intro _
  apply (confined.child within).bind
  intro child childInto
  apply Ensures.ite
  · intro _
    apply (confined.setChild within inside).bind
    intro heap confined
    apply (confined.setPrev inside inside).bind
    intro heap confined
    apply (confined.setNext inside into_none).bind
    exact fun heap confined => .ok confined
  · intro _
    apply (confined.prev childInto).bind
    intro last lastInto
    apply Ensures.ite
    · intro _
      apply (confined.suffixObject lastInto inside).bind
      intro heap confined
      apply (confined.child within).bind
      intro child childInto
      apply (confined.setPrev childInto inside).bind
      exact fun heap confined => .ok confined
    · exact fun _ => .ok confined

/-- The name that the item is given is written to the item alone.  If the copy of the
name is refused, nothing has been written at all. -/
theorem addItemToObject (confined : Confined region root base heap) (within : Into (insert root region) object)
    (inside : Into region item) (string : Option Name) (constantKey : Bool) :
    Ensures (heap.addItemToObject object string item constantKey) fun result =>
      Confined region root base result.2 := by
  unfold Heap.addItemToObject
  split
  · exact .ok confined
  apply Ensures.ite
  · exact fun _ => .ok confined
  intro _
  rename_i string _
  have kept : Confined region root base
      (if constantKey then (some string.bytes, heap) else heap.strdup string.bytes).2 := by
    split
    · exact confined
    · exact confined.withHooks _
  dsimp only
  split
  · rename_i copied
    rw [copied] at kept
    exact .ok kept
  · rename_i copied
    rw [copied] at kept
    apply Ensures.step
    intro fields
    apply Ensures.ite
    · exact fun _ => .error
    intro _
    apply ((kept.record _).setFields inside _).bind
    exact fun heap confined => confined.addItemToArray within inside

/-- Deleting goes over siblings and children, and so it stays in the set.  It frees
nodes and writes to none. -/
theorem cjsonDelete (confined : Confined region root base heap) (inside : Into region node) :
    Ensures (Heap.cjsonDelete fuel heap node) (Confined region root base) := by
  induction fuel generalizing heap node with
  | zero => exact .error
  | succ fuel ih =>
      apply Ensures.ite
      · exact fun _ => .ok confined
      intro _
      apply (confined.next inside).bind
      intro next nextInto
      apply Ensures.step
      intro fields
      apply (confined.child inside.insert).bind
      intro child childInto
      apply Ensures.iteBind (fun _ => ih (confined.record _) childInto) (fun _ => .ok confined)
      intro heap confined
      apply (confined.record _).release.bind
      exact fun heap confined => ih confined nextInto

/-- An item is taken out of a list that may be the root's.  The neighbours are found
by its own links, so that they are in the set whatever parent has been named. -/
theorem cjsonDetachItemViaPointer (confined : Confined region root base heap)
    (within : Into (insert root region) parent) (inside : Into region item) :
    Ensures (heap.cjsonDetachItemViaPointer parent item) fun result =>
      Confined region root base result.2 ∧ Into region result.1 := by
  apply Ensures.ite
  · exact fun _ => .ok ⟨confined, into_none⟩
  intro _
  apply (confined.child within).bind
  intro child childInto
  apply (confined.prev inside).bind
  intro prev prevInto
  apply Ensures.ite
  · exact fun _ => .ok ⟨confined, into_none⟩
  intro _
  apply (confined.next inside).bind
  intro next nextInto
  have tail : ∀ heap, Confined region root base heap ->
      Ensures (do
        let heap ← heap.setPrev item none
        let heap ← heap.setNext item none
        .ok (item, heap)) fun result => Confined region root base result.2 ∧ Into region result.1 := by
    intro heap confined
    apply (confined.setPrev inside into_none).bind
    intro heap confined
    apply (confined.setNext inside into_none).bind
    exact fun heap confined => .ok ⟨confined, inside⟩
  apply Ensures.iteBind (fun _ => confined.setNext prevInto nextInto) (fun _ => .ok confined)
  intro heap confined
  apply Ensures.iteBind (fun _ => confined.setPrev nextInto prevInto) (fun _ => .ok confined)
  intro heap confined
  apply Ensures.ite
  · exact fun _ => (confined.setChild within nextInto).bind tail
  · exact fun _ => Ensures.iteBind (fun _ => confined.setPrev childInto prevInto) (fun _ => .ok confined) tail

theorem cjsonDetachItemFromObject (confined : Confined region root base heap)
    (within : Into (insert root region) object) (string : Option Bytes) :
    Ensures (heap.cjsonDetachItemFromObject fuel object string caseSensitive) fun result =>
      Confined region root base result.2 ∧ Into region result.1 := by
  apply (confined.getObjectItem within string).bind
  exact fun toDetach into => confined.cjsonDetachItemViaPointer within into

theorem cjsonDeleteItemFromObject (confined : Confined region root base heap)
    (within : Into (insert root region) object) (string : Option Bytes) :
    Ensures (heap.cjsonDeleteItemFromObject fuel object string caseSensitive) (Confined region root base) := by
  apply (confined.cjsonDetachItemFromObject within string).bind
  exact fun result done => (done.1.recordChild _ _).cjsonDelete done.2

/-- The loop that looks for an element of a number, and what it finds taken out. -/
theorem detachItemFromArray (confined : Confined region root base heap)
    (within : Into (insert root region) array) (which : Nat) :
    Ensures (heap.detachItemFromArray array which) fun result =>
      Confined region root base result.2 ∧ Into region result.1 := by
  apply (confined.child within).bind
  intro child childInto
  apply (confined.getArrayItemLoop childInto which).bind
  intro c inside
  apply Ensures.ite
  · exact fun _ => .ok ⟨confined, into_none⟩
  intro _
  apply (confined.next inside).bind
  intro next nextInto
  apply (confined.prev inside).bind
  intro prev prevInto
  have tail : ∀ heap, Confined region root base heap ->
      Ensures (do
        let heap ← heap.setPrev c none
        let heap ← heap.setNext c none
        .ok (c, heap)) fun result => Confined region root base result.2 ∧ Into region result.1 := by
    intro heap confined
    apply (confined.setPrev inside into_none).bind
    intro heap confined
    apply (confined.setNext inside into_none).bind
    exact fun heap confined => .ok ⟨confined, inside⟩
  apply Ensures.iteBind (fun _ => confined.setNext prevInto nextInto) (fun _ => .ok confined)
  intro heap confined
  apply Ensures.iteBind (fun _ => confined.setPrev nextInto prevInto) (fun _ => .ok confined)
  intro heap confined
  apply Ensures.ite
  · exact fun _ => (confined.setChild within nextInto).bind tail
  · exact fun _ => Ensures.iteBind (fun _ => confined.setPrev childInto prevInto) (fun _ => .ok confined) tail

theorem utilsStrdup (confined : Confined region root base heap) (string : Option Bytes) :
    Ensures (heap.utilsStrdup string) fun result => Confined region root base result.2 := by
  cases string with
  | none => exact .error
  | some string => exact .ok (confined.withHooks _)

/-- `detach_path` takes out a node of the set and returns the parent that it took it
from, which may be the root. -/
theorem detachPath (confined : Confined region root base heap) (within : Into (insert root region) object)
    (path : Option Bytes) : Ensures (heap.detachPath fuel object path caseSensitive) fun result =>
      Confined region root base result.2.2 ∧ Into region result.1 := by
  apply (confined.utilsStrdup path).bind
  rintro ⟨_ | copy, heap⟩ confined
  · exact .ok ⟨confined, into_none⟩
  dsimp only
  split
  · exact .ok ⟨confined, into_none⟩
  apply (confined.getItemFromPointer within _).bind
  intro parent parentInto
  apply Ensures.step
  intro isArray
  apply Ensures.ite
  · intro _
    split
    · exact .ok ⟨confined, into_none⟩
    · apply (confined.detachItemFromArray parentInto _).bind
      exact fun result done => .ok done
  · intro _
    apply Ensures.step
    intro isObject
    apply Ensures.ite
    · intro _
      apply (confined.cjsonDetachItemFromObject parentInto _).bind
      exact fun result done => .ok done
    · exact fun _ => .ok ⟨confined, into_none⟩

theorem insertLoop (confined : Confined region root base heap) (inside : Into region node) (which : Nat) :
    Ensures (heap.insertLoop which node) fun result => Into region result.1 := by
  induction which generalizing node with
  | zero => exact .ok inside
  | succ which ih =>
      apply Ensures.ite
      · exact fun _ => .ok inside
      · intro _
        apply (confined.next inside).bind
        exact fun next into => ih into

/-- An item is put in front of another one, or behind the last.  If it comes to stand
first, the `child` of the array is written, too. -/
theorem insertItemInArray (confined : Confined region root base heap)
    (within : Into (insert root region) array) (inside : Into region item) (which : Nat) :
    Ensures (heap.insertItemInArray array which item) fun result => Confined region root base result.2 := by
  apply (confined.child within).bind
  intro head headInto
  apply (confined.insertLoop headInto which).bind
  rintro ⟨child, left⟩ childInto
  apply Ensures.ite
  · exact fun _ => .ok confined
  intro _
  apply Ensures.ite
  · intro _
    apply (confined.addItemToArray within inside).bind
    exact fun result confined => .ok confined
  intro _
  apply (confined.setNext inside childInto).bind
  intro heap confined
  apply (confined.prev childInto).bind
  intro prev prevInto
  apply (confined.setPrev inside prevInto).bind
  intro heap confined
  apply (confined.setPrev childInto inside).bind
  intro heap confined
  apply Ensures.ite
  · intro _
    apply (confined.setChild within inside).bind
    exact fun heap confined => .ok confined
  · intro _
    apply (confined.prev inside).bind
    intro before beforeInto
    apply (confined.setNext beforeInto inside).bind
    exact fun heap confined => .ok confined

/-! ## Copying -/

/-- A copy of a string takes a request and nothing else. -/
theorem duplicateText (confined : Confined region root base heap) (string : Option Bytes) :
    Confined region root base (heap.duplicateText string).2 := by
  cases string with
  | none => exact confined
  | some string => exact confined.withHooks _

theorem duplicateName (confined : Confined region root base heap) (fields : Fields) :
    Confined region root base (heap.duplicateName fields).2 := by
  rw [Heap.duplicateName]
  split
  · exact confined
  · exact confined.duplicateText _

/-- The copy of a node is inside, wherever the node is. -/
theorem duplicateNode (confined : Confined region root base heap) :
    Ensures (heap.duplicateNode fuel item) fun result =>
      Confined region root base result.2 ∧ Into region result.1 := by
  rw [Heap.duplicateNode]
  have created := confined.newItem
  rcases made : heap.newItem with ⟨_ | newitem, heap⟩ <;> rw [made] at created
  · exact .ok ⟨created.1, into_none⟩
  rcases created with ⟨confined, inside⟩
  have fails : ∀ heap, Confined region root base heap -> Ensures (do
      let heap ← Heap.cjsonDelete fuel heap (some newitem)
      .ok (none, heap)) fun result => Confined region root base result.2 ∧ Into region result.1 := by
    intro heap confined
    apply (confined.cjsonDelete inside).bind
    exact fun heap confined => .ok ⟨confined, into_none⟩
  apply Ensures.step
  intro fields
  apply (confined.setFields inside _).bind
  intro heap confined
  have texts := confined.duplicateText fields.valuestring
  rcases copied : heap.duplicateText fields.valuestring with ⟨_ | valuestring, heap⟩ <;> rw [copied] at texts
  · exact fails heap texts
  apply (texts.setFields inside _).bind
  intro heap confined
  have names := confined.duplicateName fields
  rcases copied : heap.duplicateName fields with ⟨_ | string, heap⟩ <;> rw [copied] at names
  · exact fails heap names
  apply (names.setFields inside _).bind
  exact fun heap confined => .ok ⟨confined, inside⟩

theorem attachChild (confined : Confined region root base heap) (within : Into (insert root region) parent)
    (lastInto : Into region node) (inside : Into region item) :
    Ensures (heap.attachChild parent node item) (Confined region root base) :=
  .ite (fun _ => confined.suffixObject lastInto inside) (fun _ => confined.setChild within inside)

theorem closeChildren (confined : Confined region root base heap) (within : Into (insert root region) parent)
    (lastInto : Into region node) : Ensures (heap.closeChildren parent node) (Confined region root base) := by
  apply (confined.child within).bind
  intro child childInto
  exact .ite (fun _ => confined.setPrev childInto lastInto) (fun _ => .ok confined)

/-- The copies are put behind a node that may be the root; a node that is given up is
deleted, so this one has to be inside. -/
theorem duplicateChildren {newitem child last : Pointer} {depth : Nat}
    (recursion : ∀ less < fuel, ∀ item depth recurse {heap : Heap}, Confined region root base heap ->
      Ensures (Heap.duplicateRec less heap item depth recurse) fun result =>
        Confined region root base result.2 ∧ Into region result.1)
    (confined : Confined region root base heap) (within : Into (insert root region) newitem)
    (lastInto : Into region last) :
    Ensures (Heap.duplicateChildren fuel heap newitem child last depth) fun result =>
      match result.1 with
      | none => Into region newitem -> Confined region root base result.2
      | some last => Confined region root base result.2 ∧ Into region last := by
  induction fuel generalizing heap child last with
  | zero => exact .error
  | succ fuel ih =>
      have fails : ∀ heap, Confined region root base heap -> Ensures (do
          let heap ← Heap.cjsonDelete (fuel + 1) heap newitem
          .ok ((none : Option Pointer), heap)) fun result =>
            match result.1 with
            | none => Into region newitem -> Confined region root base result.2
            | some last => Confined region root base result.2 ∧ Into region last := by
        intro heap confined
        by_cases inside : Into region newitem
        · apply (confined.cjsonDelete inside).bind
          exact fun heap confined => .ok fun _ => confined
        · apply Ensures.step
          exact fun heap => .ok fun inside' => absurd inside' inside
      rw [Heap.duplicateChildren]
      apply Ensures.ite
      · exact fun _ => .ok ⟨confined, lastInto⟩
      intro _
      apply Ensures.ite
      · exact fun _ => fails heap confined
      intro _
      apply (recursion fuel (Nat.lt_succ_self fuel) child (depth + 1) true confined).bind
      rintro ⟨newchild, heap⟩ ⟨confined, inside⟩
      apply Ensures.ite
      · exact fun _ => fails heap confined
      intro _
      apply (confined.attachChild within lastInto inside).bind
      intro heap confined
      apply Ensures.step
      exact fun child => ih (fun less smaller => recursion less (Nat.lt_succ_of_lt smaller)) confined inside

/-- A copy is made of new nodes, and these are inside.  Nothing is said about the node
that is copied: it may be anywhere, since copying only reads it. -/
theorem duplicateRec (confined : Confined region root base heap) (depth : Nat) (recurse : Bool) :
    Ensures (Heap.duplicateRec fuel heap item depth recurse) fun result =>
      Confined region root base result.2 ∧ Into region result.1 := by
  induction fuel using Nat.strong_induction_on generalizing heap item depth recurse with
  | _ fuel ih =>
      cases fuel with
      | zero => exact .error
      | succ fuel =>
          rw [Heap.duplicateRec]
          apply Ensures.ite
          · exact fun _ => .ok ⟨confined, into_none⟩
          intro _
          apply confined.duplicateNode.bind
          rintro ⟨newitem, heap⟩ ⟨confined, inside⟩
          apply Ensures.ite
          · exact fun _ => .ok ⟨confined, into_none⟩
          intro _
          apply Ensures.ite
          · exact fun _ => .ok ⟨confined, inside⟩
          intro _
          apply Ensures.step
          intro child
          have children := @duplicateChildren _ _ _ _ fuel newitem child none depth
            (fun less smaller item depth recurse heap confined =>
              ih less (Nat.lt_succ_of_lt smaller) confined depth recurse)
            confined inside.insert into_none
          apply children.bind
          rintro ⟨_ | last, heap⟩ done
          · exact .ok ⟨done inside, into_none⟩
          · apply (done.1.closeChildren inside.insert done.2).bind
            exact fun heap confined => .ok ⟨confined, inside⟩

/-! ## Sorting and comparing -/

variable {list first second : Pointer}

/-- The two pointers that look for the middle of a list only follow `next`. -/
theorem middleLoop (confined : Confined region root base heap) (inside : Into region second)
    (also : Into region node) : Ensures (heap.middleLoop fuel second node) (Into region) := by
  induction fuel generalizing second node with
  | zero => exact .error
  | succ fuel ih =>
      apply Ensures.ite
      · exact fun _ => .ok inside
      intro _
      apply (confined.next inside).bind
      intro second secondInto
      apply (confined.next also).bind
      intro current currentInto
      apply Ensures.iteBind (fun _ => confined.next currentInto) (fun _ => .ok currentInto)
      exact fun current currentInto => ih secondInto currentInto

/-- The list is cut in the middle: the link to the second half is cleared on one side
and the link back on the other. -/
theorem splitList (confined : Confined region root base heap) (inside : Into region second) :
    Ensures (heap.splitList second) (Confined region root base) := by
  apply Ensures.ite
  · exact fun _ => .ok confined
  intro _
  apply (confined.prev inside).bind
  intro prev prevInto
  apply Ensures.ite
  · exact fun _ => .ok confined
  intro _
  apply (confined.setNext prevInto into_none).bind
  exact fun heap confined => confined.setPrev inside into_none

/-- The pointers of the merging lead into the set, too.  The two halves, the result
and its tail are all that the loop of the merge sort holds besides the heap. -/
structure Merges (region : Set Addr) (root : Addr) (base : Heap) (merging : Merging) : Prop where
  confined : Confined region root base merging.heap
  first : Into region merging.first
  second : Into region merging.second
  result : Into region merging.result
  resultTail : Into region merging.resultTail

/-- The node that comes next is put behind the last one of the result.  This is the
one step of the merge that writes. -/
theorem addSmaller (confined : Confined region root base heap) {resultTail smaller : Pointer}
    (tailInto : Into region resultTail) (inside : Into region smaller) (result : Pointer) :
    Ensures (heap.addSmaller result resultTail smaller) (Confined region root base) := by
  apply Ensures.ite
  · exact fun _ => .ok confined
  intro _
  apply (confined.setNext tailInto inside).bind
  exact fun heap confined => confined.setPrev inside tailInto

/-- The merge puts node after node behind the result until one of the halves is empty,
by induction on the budget of the loop. -/
theorem mergeLoop {merging : Merging} (merges : Merges region root base merging) :
    Ensures (Heap.mergeLoop caseSensitive fuel merging) (Merges region root base) := by
  induction fuel generalizing merging with
  | zero => exact .error
  | succ fuel ih =>
      rcases merging with ⟨heap, first, second, result, resultTail⟩
      apply Ensures.ite
      · exact fun _ => .ok merges
      intro _
      apply Ensures.step
      intro order
      have smallerInto : Into region (if order < 0 then first else second) := by
        split
        · exact merges.first
        · exact merges.second
      have resultInto : Into region (if result.isNone then if order < 0 then first else second else result) := by
        split
        · exact smallerInto
        · exact merges.result
      apply (merges.confined.addSmaller merges.resultTail smallerInto result).bind
      intro heap confined
      apply Ensures.ite
      · intro _
        apply (confined.next merges.first).bind
        exact fun first firstInto => ih ⟨confined, firstInto, merges.second, resultInto, smallerInto⟩
      · intro _
        apply (confined.next merges.second).bind
        exact fun second secondInto => ih ⟨confined, merges.first, secondInto, resultInto, smallerInto⟩

theorem appendRest (confined : Confined region root base heap) (tailInto : Into region node)
    (inside : Into region item) : Ensures (heap.appendRest node item) (Confined region root base) := by
  apply Ensures.ite
  · exact fun _ => .ok confined
  intro _
  apply (confined.setNext tailInto inside).bind
  exact fun heap confined => confined.setPrev inside tailInto

theorem finishMerge {merging : Merging} (merges : Merges region root base merging) :
    Ensures (Heap.finishMerge merging) fun result =>
      Confined region root base result.2 ∧ Into region result.1 := by
  apply Ensures.ite
  · exact fun _ => .ok ⟨merges.confined, merges.first⟩
  intro _
  apply (merges.confined.appendRest merges.resultTail merges.first).bind
  intro heap confined
  apply Ensures.ite
  · exact fun _ => .ok ⟨confined, merges.second⟩
  intro _
  apply (confined.appendRest merges.resultTail merges.second).bind
  exact fun heap confined => .ok ⟨confined, merges.result⟩

/-- Sorting rearranges the nodes of a list among themselves, however often it cuts and
merges. -/
theorem sortList (confined : Confined region root base heap) (inside : Into region list) :
    Ensures (Heap.sortList caseSensitive fuel heap list) fun result =>
      Confined region root base result.2 ∧ Into region result.1 := by
  induction fuel generalizing heap list with
  | zero => exact .error
  | succ fuel ih =>
      apply Ensures.ite
      · exact fun _ => .ok ⟨confined, inside⟩
      intro _
      apply Ensures.step
      intro next
      apply Ensures.ite
      · exact fun _ => .ok ⟨confined, inside⟩
      intro _
      apply Ensures.step
      intro sorted
      apply Ensures.ite
      · exact fun _ => .ok ⟨confined, inside⟩
      intro _
      apply (confined.middleLoop inside inside).bind
      intro second secondInto
      apply (confined.splitList secondInto).bind
      intro heap confined
      apply (ih confined inside).bind
      rintro ⟨first, heap⟩ ⟨confined, firstInto⟩
      apply (ih confined secondInto).bind
      rintro ⟨second, heap⟩ ⟨confined, secondInto⟩
      apply (mergeLoop ⟨confined, firstInto, secondInto, into_none, into_none⟩).bind
      exact fun merging merges => finishMerge merges

/-- Sorting an object writes the links of its children and its own `child`; the object
may be the root. -/
theorem sortObject (confined : Confined region root base heap) (within : Into (insert root region) object) :
    Ensures (Heap.sortObject fuel heap object caseSensitive) (Confined region root base) := by
  apply Ensures.ite
  · exact fun _ => .ok confined
  intro _
  apply (confined.child within).bind
  intro child childInto
  apply (confined.sortList childInto).bind
  rintro ⟨list, heap⟩ ⟨confined, listInto⟩
  exact confined.setChild within listInto

theorem compareChildren {a b : Pointer} {named : Bool}
    (recursion : ∀ less < fuel, ∀ {a b heap}, Confined region root base heap ->
      Into (insert root region) a -> Into (insert root region) b ->
        Ensures (Heap.compareJson less heap a b caseSensitive) fun result => Confined region root base result.2)
    (confined : Confined region root base heap) (aInto : Into region a) (bInto : Into region b) :
    Ensures (Heap.compareChildren fuel heap a b caseSensitive named) fun result =>
      Confined region root base result.2 := by
  induction fuel generalizing heap a b with
  | zero => exact .error
  | succ fuel ih =>
      rw [Heap.compareChildren]
      apply Ensures.ite
      · intro _
        apply Ensures.iteBind (fun _ => .any) (fun _ => .any)
        intro order _
        apply Ensures.ite
        · exact fun _ => .ok confined
        intro _
        apply (recursion fuel (Nat.lt_succ_self fuel) confined aInto.insert bInto.insert).bind
        rintro ⟨equal, heap⟩ confined
        apply Ensures.ite
        · exact fun _ => .ok confined
        intro _
        apply (confined.next aInto).bind
        intro a aInto
        apply (confined.next bInto).bind
        intro b bInto
        exact ih (fun less smaller => recursion less (Nat.lt_succ_of_lt smaller)) confined aInto bInto
      · exact fun _ => .ok confined

/-- A comparison sorts both sides, and so it writes to both of them: each has to be in
the set, or be the root. -/
theorem compareJson {a b : Pointer} (confined : Confined region root base heap)
    (aInto : Into (insert root region) a) (bInto : Into (insert root region) b) :
    Ensures (Heap.compareJson fuel heap a b caseSensitive) fun result => Confined region root base result.2 := by
  induction fuel using Nat.strong_induction_on generalizing heap a b with
  | _ fuel ih =>
      cases fuel with
      | zero => exact .error
      | succ fuel =>
          have below : ∀ less < fuel, ∀ {a b heap}, Confined region root base heap ->
              Into (insert root region) a -> Into (insert root region) b ->
                Ensures (Heap.compareJson less heap a b caseSensitive) fun result =>
                  Confined region root base result.2 :=
            fun less smaller => ih less (Nat.lt_succ_of_lt smaller)
          rw [Heap.compareJson]
          apply Ensures.ite
          · exact fun _ => .ok confined
          intro _
          apply Ensures.step
          intro aFields
          apply Ensures.step
          intro bFields
          apply Ensures.ite
          · exact fun _ => .ok confined
          intro _
          split
          · exact .ok confined
          · split
            · exact .error
            · exact .ok confined
          · apply (confined.child aInto).bind
            intro a aInto
            apply (confined.child bInto).bind
            exact fun b bInto => compareChildren below confined aInto bInto
          · apply (confined.sortObject aInto).bind
            intro heap confined
            apply (confined.sortObject bInto).bind
            intro heap confined
            apply (confined.child aInto).bind
            intro a aInto
            apply (confined.child bInto).bind
            exact fun b bInto => compareChildren below confined aInto bInto
          · exact .ok confined

/-! ## Patches -/

variable {patch path lender : Pointer}

theorem dropValue (confined : Confined region root base heap) (inside : Into region value) (status : Nat) :
    Ensures (Heap.dropValue fuel heap status lender value) fun result => Confined region root base result.2 := by
  apply ((confined.recordChild _ _).cjsonDelete inside).bind
  exact fun heap confined => .ok confined

/-- A value is put where the last token says, in whatever container the front of the
path leads to; if there is no place for it the value is deleted. -/
theorem addToParent {parent : Pointer} (confined : Confined region root base heap)
    (parentInto : Into (insert root region) parent) (inside : Into region value) (childPointer : Bytes) :
    Ensures (Heap.addToParent fuel heap parent childPointer lender value caseSensitive) fun result =>
      Confined region root base result.2 := by
  apply Ensures.ite
  · exact fun _ => confined.dropValue inside 9
  intro _
  apply Ensures.step
  intro isArray
  apply Ensures.ite
  · intro _
    apply Ensures.ite
    · intro _
      apply (confined.addItemToArray parentInto inside).bind
      exact fun result confined => .ok confined
    intro _
    split
    · exact confined.dropValue inside 11
    apply (confined.insertItemInArray parentInto inside _).bind
    rintro ⟨inserted, heap⟩ confined
    apply Ensures.ite
    · exact fun _ => .ok confined
    · exact fun _ => confined.dropValue inside 10
  intro _
  apply Ensures.step
  intro isObject
  apply Ensures.ite
  · intro _
    apply (confined.cjsonDeleteItemFromObject parentInto _).bind
    intro heap confined
    apply (confined.addItemToObject parentInto inside _ false).bind
    exact fun result confined => .ok confined
  · exact fun _ => confined.dropValue inside 9

/-- The end of `apply_patch`: the path is copied and split, and the value put below
the parent. -/
theorem addToPath (confined : Confined region root base heap) (within : Into (insert root region) object)
    (inside : Into region value) :
    Ensures (Heap.addToPath fuel heap object path lender value caseSensitive) fun result =>
      Confined region root base result.2 := by
  apply Ensures.step
  intro fields
  apply (confined.utilsStrdup fields.valuestring).bind
  rintro ⟨_ | copy, heap⟩ confined
  · exact confined.dropValue inside 9
  dsimp only
  split
  · apply Ensures.step
    exact fun _ => confined.dropValue inside 9
  apply (confined.getItemFromPointer within _).bind
  exact fun parent parentInto => confined.addToParent parentInto inside _

/-- `add` and the second half of `replace`: a copy of the value of the patch is put in
its place. -/
theorem addValue (confined : Confined region root base heap) (within : Into (insert root region) object) :
    Ensures (Heap.addValue fuel heap object patch path caseSensitive) fun result =>
      Confined region root base result.2 := by
  apply Ensures.step
  intro source
  apply Ensures.ite
  · exact fun _ => .ok confined
  intro _
  apply (confined.duplicateRec 0 true).bind
  rintro ⟨value, heap⟩ ⟨confined, inside⟩
  apply Ensures.ite
  · exact fun _ => .ok confined
  · exact fun _ => confined.addToPath within inside

/-- `move` takes its value out of the document, `copy` makes a new one: either is in
the set by then. -/
theorem transferValue (confined : Confined region root base heap) (within : Into (insert root region) object)
    (operation : PatchOperation) :
    Ensures (Heap.transferValue fuel heap object patch path operation caseSensitive) fun result =>
      Confined region root base result.2 := by
  apply Ensures.step
  intro source
  apply Ensures.step
  intro isString
  apply Ensures.ite
  · exact fun _ => .ok confined
  intro _
  apply Ensures.step
  intro fields
  apply Ensures.ite
  · intro _
    apply (confined.detachPath within _).bind
    rintro ⟨value, lender, heap⟩ ⟨confined, inside⟩
    apply Ensures.ite
    · exact fun _ => .ok confined
    · exact fun _ => confined.addToPath within inside
  · intro _
    apply Ensures.step
    intro found
    apply Ensures.ite
    · exact fun _ => .ok confined
    intro _
    apply (confined.duplicateRec 0 true).bind
    rintro ⟨value, heap⟩ ⟨confined, inside⟩
    apply Ensures.ite
    · exact fun _ => .ok confined
    · exact fun _ => confined.addToPath within inside

/-- A patch that does not overwrite the root stays in the territory of the document,
whichever operation it is and whether or not it succeeds. -/
theorem applyAtPath (confined : Confined region root base heap) (within : Into (insert root region) object)
    (pointer : Bytes) (operation : PatchOperation) :
    Ensures (Heap.applyAtPath fuel heap object patch path pointer operation caseSensitive) fun result =>
      Confined region root base result.2 := by
  apply Ensures.ite
  · intro _
    apply (confined.detachPath within _).bind
    rintro ⟨oldItem, parent, heap⟩ ⟨confined, inside⟩
    apply Ensures.ite
    · exact fun _ => .ok confined
    intro _
    apply ((confined.recordChild _ _).cjsonDelete inside).bind
    intro heap confined
    apply Ensures.ite
    · exact fun _ => .ok confined
    · exact fun _ => confined.addValue within
  · intro _
    apply Ensures.ite
    · exact fun _ => confined.transferValue within operation
    · exact fun _ => confined.addValue within

/-- A test compares the document with the value of the patch, and sorts both.  This is
why the patch has to be in the set along with the document. -/
theorem testPatch (confined : Confined region root base heap) (within : Into (insert root region) object)
    (patchInto : Into (insert root region) patch) :
    Ensures (Heap.testPatch fuel heap object patch path caseSensitive) fun result =>
      Confined region root base result.2 := by
  apply Ensures.step
  intro fields
  apply (confined.getItemFromPointer within _).bind
  intro a aInto
  apply (confined.getObjectItem patchInto _).bind
  intro b bInto
  apply (confined.compareJson aInto bInto.insert).bind
  exact fun result confined => .ok confined

end Confined
end Heap
end CJson
