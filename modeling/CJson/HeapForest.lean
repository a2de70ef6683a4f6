import CJson.Library.OrderedForest
import CJson.Library.Returns
import CJson.Manip

/-!
# Heaps that hold forests

The abstract state of the heap is a forest: which nodes there are, and the list
of children of each.  `Represents` says that the pointers draw it, with every
child list well linked and nothing else linked at all.  While a function builds
a child list from the front, the first child's `prev` is still NULL, and the
parent may not know its children yet; the stage of a node says how far its list
has come.

Each function that rewires pointers is one of the changes of the forest.
-/

namespace CJson
namespace Heap

open OrderedForest

/-- How far the child list of a node has come.  Only while a tree is being made is
there another stage than `closed`, and then for the nodes on the way down to what is
being added. -/
inductive Stage where
  /-- Well linked. -/
  | closed
  /-- The first child's `prev` is NULL. -/
  | chained
  /-- Moreover the node's `child` has not been set yet. -/
  | loose
  deriving DecidableEq

/-- The pointers of the heap are those of the forest: which nodes are there, what
their child lists are, and that roots are linked to nothing.  It is the invariant of
all calls; the lists are read off the forest, and no function needs to be followed
along pointers again. -/
structure Represents (heap : Heap) (forest : OrderedForest Addr) (stage : Addr -> Stage) : Prop where
  live : ∀ node, heap.allocated node = true ↔ node ∈ forest.live
  bounded : ∀ node ∈ forest.live, node < heap.unused
  heads : ∀ node ∈ forest.live, stage node ≠ .loose -> heap.childOf node = (forest.children node).head?
  run : ∀ node ∈ forest.live, stage node = .closed ->
    heap.links.Run (forest.children node).getLast? (forest.children node) none
  openRun : ∀ node ∈ forest.live, stage node ≠ .closed ->
    heap.links.Run none (forest.children node) none
  roots : ∀ node, forest.IsRoot node -> heap.links.next node = none ∧ heap.links.prev node = none
  leaves : ∀ node ∈ forest.live, (heap.fieldsOf node).type_.isReference = true ->
    forest.children node = []

/-- Only pointers between nodes have changed, and nothing has been given back.
Whether a node is there, its fields and the answers of the hooks are what they were. -/
structure Relinked (heap after : Heap) : Prop where
  allocated : after.allocated = heap.allocated
  unused : after.unused = heap.unused
  fieldsOf : after.fieldsOf = heap.fieldsOf
  hooks : after.hooks = heap.hooks
  released : after.released = heap.released

theorem Relinked.refl (heap : Heap) : heap.Relinked heap := ⟨rfl, rfl, rfl, rfl, rfl⟩

variable {heap after : Heap} {forest : OrderedForest Addr} {stage : Addr -> Stage}

theorem Represents.allocated (represents : heap.Represents forest stage) {node : Addr}
    (isLive : node ∈ forest.live) : heap.allocated node = true :=
  (represents.live node).mpr isLive

/-- The record does not matter to the pointers. -/
theorem Represents.record (represents : heap.Represents forest stage) (releases : List Release) :
    (heap.record releases).Represents forest stage :=
  { represents with }

theorem Represents.recordChild (represents : heap.Represents forest stage) (parent item : Pointer) :
    (heap.recordChild parent item).Represents forest stage := by
  rcases heap.recordChild_eq parent item with ⟨releases, same⟩
  rw [same]
  exact represents.record releases

theorem Represents.wellLinked (represents : heap.Represents forest stage) {node : Addr}
    (isLive : node ∈ forest.live) (closed : stage node = .closed) :
    heap.links.WellLinked (heap.childOf node) (forest.children node) :=
  ⟨represents.heads node isLive (by simp [closed]), represents.run node isLive closed⟩

/-- One child list has changed, and the links of its nodes with it.  Everything that
has to be known about the other lists is that their nodes keep their links; this is
where distinct lists being disjoint comes in. -/
theorem Represents.change (represents : heap.Represents forest stage)
    {forest' : OrderedForest Addr} {stage' : Addr -> Stage} {parent : Addr}
    (relinked : heap.Relinked after) (live : forest'.live = forest.live)
    (others : ∀ node, node ≠ parent -> forest'.children node = forest.children node ∧
      stage' node = stage node ∧ after.childOf node = heap.childOf node)
    (links : ∀ other node, other ≠ parent -> node ∈ forest.children other ->
      after.links.next node = heap.links.next node ∧ after.links.prev node = heap.links.prev node)
    (head : stage' parent ≠ .loose -> after.childOf parent = (forest'.children parent).head?)
    (run : stage' parent = .closed ->
      after.links.Run (forest'.children parent).getLast? (forest'.children parent) none)
    (openRun : stage' parent ≠ .closed -> after.links.Run none (forest'.children parent) none)
    (roots : ∀ node, forest'.IsRoot node -> after.links.next node = none ∧ after.links.prev node = none)
    (leaf : (heap.fieldsOf parent).type_.isReference = false) :
    after.Represents forest' stage' where
  live node := by
    rw [relinked.allocated, live]
    exact represents.live node
  bounded node isLive := by
    rw [relinked.unused]
    exact represents.bounded node (live ▸ isLive)
  heads node isLive known := by
    by_cases same : node = parent
    · rw [same] at known ⊢
      exact head known
    · rcases others node same with ⟨children, stages, child⟩
      rw [child, children]
      exact represents.heads node (live ▸ isLive) (stages ▸ known)
  run node isLive closed := by
    by_cases same : node = parent
    · rw [same] at closed ⊢
      exact run closed
    · rcases others node same with ⟨children, stages, _⟩
      rw [children]
      exact (represents.run node (live ▸ isLive) (stages ▸ closed)).congr
        (fun inner inside => links node inner same inside)
  openRun node isLive opened := by
    by_cases same : node = parent
    · rw [same] at opened ⊢
      exact openRun opened
    · rcases others node same with ⟨children, stages, _⟩
      rw [children]
      exact (represents.openRun node (live ▸ isLive) (stages ▸ opened)).congr
        (fun inner inside => links node inner same inside)
  roots := roots
  leaves node isLive reference := by
    rw [relinked.fieldsOf] at reference
    by_cases same : node = parent
    · rw [same, leaf] at reference
      cases reference
    · rw [(others node same).1]
      exact represents.leaves node (live ▸ isLive) reference

/-- The same for a list that is well linked before and after.  The open stages of a
list under construction play no part here. -/
theorem Represents.relink (represents : heap.Represents forest stage)
    {forest' : OrderedForest Addr} {parent : Addr} (relinked : heap.Relinked after)
    (live : forest'.live = forest.live)
    (children : ∀ node, node ≠ parent -> forest'.children node = forest.children node)
    (childOf : ∀ node, node ≠ parent -> after.childOf node = heap.childOf node)
    (links : ∀ other node, other ≠ parent -> node ∈ forest.children other ->
      after.links.next node = heap.links.next node ∧ after.links.prev node = heap.links.prev node)
    (closed : stage parent = .closed)
    (linked : after.links.WellLinked (after.childOf parent) (forest'.children parent))
    (roots : ∀ node, forest'.IsRoot node -> after.links.next node = none ∧ after.links.prev node = none)
    (leaf : (heap.fieldsOf parent).type_.isReference = false) :
    after.Represents forest' stage :=
  represents.change relinked live
    (fun node different => ⟨children node different, rfl, childOf node different⟩) links
    (fun _ => linked.1) (fun _ => linked.2) (fun opened => absurd closed opened) roots leaf

/-! ## One list -/

/-- The children of a node are a well linked list of nodes.  Nothing is said about the
rest of the heap, so that this much can be used where there is no forest: below a
reference, or in a document that is being patched. -/
structure Lists (heap : Heap) (parent : Addr) (nodes : List Addr) : Prop where
  parentLive : heap.allocated parent = true
  live : ∀ node ∈ nodes, heap.allocated node = true
  linked : heap.links.WellLinked (heap.childOf parent) nodes

/-- The children of a node have become another well linked list, and the links of no
other nodes than those have changed.  The `child` of every other node is what it was. -/
structure Relists (heap after : Heap) (parent : Addr) (touched nodes : List Addr) : Prop where
  relinked : heap.Relinked after
  linked : after.links.WellLinked (after.childOf parent) nodes
  childOf : ∀ node, node ≠ parent -> after.childOf node = heap.childOf node
  links : ∀ node, node ∉ touched ->
    after.links.next node = heap.links.next node ∧ after.links.prev node = heap.links.prev node

theorem Represents.lists (represents : heap.Represents forest stage) {parent : Addr}
    (isLive : parent ∈ forest.live) (closed : stage parent = .closed) :
    heap.Lists parent (forest.children parent) :=
  ⟨represents.allocated isLive, fun _ inside => represents.allocated (forest.closed inside).1,
    represents.wellLinked isLive closed⟩

section Lists

/-- A node with others in front of it is not the head. -/
theorem ne_head_of_split {nodes front back : List Addr} {node : Addr} (distinct : nodes.Nodup)
    (split : nodes = front ++ node :: back) (nonempty : front ≠ []) : some node ≠ nodes.head? := by
  intro same
  rcases List.exists_cons_of_ne_nil nonempty with ⟨first, rest, rfl⟩
  rw [split] at same distinct
  have equal : node = first := Option.some.inj same
  exact (List.nodup_cons.mp distinct).1 (equal ▸ by simp)

variable {parent item : Addr} {nodes : List Addr}

theorem Lists.distinct (lists : heap.Lists parent nodes) : nodes.Nodup := lists.linked.2.chain.nodup

/-- `add_item_to_array` puts the item behind the last child, told for one list.  The
links that change are those of the item, of the last child and of the head. -/
theorem Lists.addItemToArray (lists : heap.Lists parent nodes) (itemLive : heap.allocated item = true)
    (different : parent ≠ item) (fresh : item ∉ nodes) (ends : heap.links.next item = none) :
    Returns (heap.addItemToArray (some parent) (some item)) fun result =>
      result.1 = true ∧ heap.Relists result.2 parent (item :: nodes) (nodes ++ [item]) := by
  have parentLive := lists.parentLive
  have linked := lists.linked
  rcases List.eq_nil_or_concat nodes with rfl | ⟨front, last, split⟩
  · -- list is empty
    have runs : heap.addItemToArray (some parent) (some item) =
        .ok (true, (heap.withChild parent (some item)).withLinks
          ((heap.links.setPrev item (some item)).setNext item none)) := by
      simp [Heap.addItemToArray, different, parentLive, itemLive, linked.1]
    refine Returns.of_eq runs ⟨rfl, ⟨rfl, rfl, rfl, rfl, rfl⟩, ?_, ?_, ?_⟩
    · simp [Links.WellLinked]
    · intro node other
      simp [other]
    · intro node untouched
      have other : node ≠ item := fun same => untouched (same ▸ List.mem_cons_self)
      simp [other]
  · have inside : last ∈ nodes := by simp [split]
    have isLast : nodes.getLast? = some last := by simp [split]
    rcases Option.isSome_iff_exists.mp (List.isSome_head?.mpr (List.ne_nil_of_mem inside)) with
      ⟨first, isFirst⟩
    have firstIn := List.mem_of_mem_head? isFirst
    have firstLive := lists.live first firstIn
    have lastLive := lists.live last inside
    have head : heap.childOf parent = some first := linked.1.trans isFirst
    have prev : heap.links.prev first = some last := (linked.prev_first isFirst).trans isLast
    have runs : heap.addItemToArray (some parent) (some item) =
        .ok (true, heap.withLinks (((heap.links.setNext last (some item)).setPrev item
          (some last)).setPrev first (some item))) := by
      simp [Heap.addItemToArray, suffixObject, different, parentLive, itemLive, firstLive, lastLive, head, prev]
    refine Returns.of_eq runs ⟨rfl, ⟨rfl, rfl, rfl, rfl, rfl⟩, ?_, fun _ _ => rfl, ?_⟩
    · exact linked.append isFirst isLast lists.distinct fresh ends
    · intro node untouched
      have other : node ≠ item := fun same => untouched (same ▸ List.mem_cons_self)
      have notFirst : node ≠ first := fun same => untouched (same ▸ List.mem_cons_of_mem _ firstIn)
      have notLast : node ≠ last := fun same => untouched (same ▸ List.mem_cons_of_mem _ inside)
      simp [other, notFirst, notLast]

/-- What `cjson_detach_item_via_pointer` does to a node of the list: the list closes
up around it, and it is linked to nothing any more. -/
def Unlists (heap : Heap) (parent : Addr) (nodes : List Addr) (item : Addr) : Prop :=
  Returns (heap.cjsonDetachItemViaPointer (some parent) (some item)) fun result =>
    result.1 = some item ∧ heap.Relists result.2 parent nodes (nodes.erase item) ∧
      result.2.links.next item = none ∧ result.2.links.prev item = none

theorem Lists.detachOnly (lists : heap.Lists parent [item]) : heap.Unlists parent [item] item := by
  have parentLive := lists.parentLive
  have itemLive := lists.live item List.mem_cons_self
  have head : heap.childOf parent = some item := lists.linked.1
  have next : heap.links.next item = none := lists.linked.2.2.1
  have runs : heap.cjsonDetachItemViaPointer (some parent) (some item) =
      .ok (some item, (heap.withChild parent none).withLinks
        ((heap.links.setPrev item none).setNext item none)) := by
    simp [Heap.cjsonDetachItemViaPointer, parentLive, itemLive, head, next]
  refine Returns.of_eq runs ⟨rfl, ⟨⟨rfl, rfl, rfl, rfl, rfl⟩, ?_, ?_, ?_⟩, ?_, ?_⟩
  · simp [Links.WellLinked]
  · intro node different
    simp [different]
  · intro node untouched
    have different : node ≠ item := fun same => untouched (same ▸ List.mem_cons_self)
    simp [different]
  · simp
  · simp

theorem Lists.detachFirst {second : Addr} {back : List Addr} (lists : heap.Lists parent (item :: second :: back)) :
    heap.Unlists parent (item :: second :: back) item := by
  have secondIn : second ∈ item :: second :: back := by simp
  have parentLive := lists.parentLive
  have itemLive := lists.live item List.mem_cons_self
  have secondLive := lists.live second secondIn
  have distinct := lists.distinct
  have linked := lists.linked
  have head : heap.childOf parent = some item := linked.1
  have next : heap.links.next item = some second := linked.2.2.1
  have runs : heap.cjsonDetachItemViaPointer (some parent) (some item) =
      .ok (some item, (heap.withChild parent (some second)).withLinks
        (((heap.links.setPrev second (heap.links.prev item)).setPrev item none).setNext item none)) := by
    simp [Heap.cjsonDetachItemViaPointer, parentLive, itemLive, secondLive, head, next]
  refine Returns.of_eq runs ⟨rfl, ⟨⟨rfl, rfl, rfl, rfl, rfl⟩, ?_, ?_, ?_⟩, ?_, ?_⟩
  · rw [List.erase_cons_head]
    simpa using (linked.removeFirst distinct).clear (List.nodup_cons.mp distinct).1
  · intro node different
    simp [different]
  · intro node untouched
    have different : node ≠ item := fun same => untouched (same ▸ List.mem_cons_self)
    have notSecond : node ≠ second := fun same => untouched (same ▸ secondIn)
    simp [different, notSecond]
  · simp
  · simp

theorem Lists.detachLast {prior : Addr} {front : List Addr} (lists : heap.Lists parent (front ++ [prior, item])) :
    heap.Unlists parent (front ++ [prior, item]) item := by
  have isChild : item ∈ front ++ [prior, item] := by simp
  have priorIn : prior ∈ front ++ [prior, item] := by simp
  have parentLive := lists.parentLive
  have itemLive := lists.live item isChild
  have priorLive := lists.live prior priorIn
  have distinct := lists.distinct
  have linked := lists.linked
  have joined : front ++ [prior, item] = (front ++ [prior]) ++ [item] := by simp
  rcases Option.isSome_iff_exists.mp (List.isSome_head?.mpr (List.ne_nil_of_mem isChild)) with ⟨first, isFirst⟩
  have firstIn := List.mem_of_mem_head? isFirst
  have firstLive := lists.live first firstIn
  have head : heap.childOf parent = some first := linked.1.trans isFirst
  have notFirst : item ≠ first := by
    intro same
    apply ne_head_of_split distinct joined (by simp)
    rw [isFirst, same]
  have run := linked.2
  rw [joined] at run
  have prev : heap.links.prev item = some prior := by simpa using run.at.1
  have next : heap.links.next item = none := run.at.2
  have runs : heap.cjsonDetachItemViaPointer (some parent) (some item) =
      .ok (some item, heap.withLinks ((((heap.links.setNext prior none).setPrev first
        (some prior)).setPrev item none).setNext item none)) := by
    simp [Heap.cjsonDetachItemViaPointer, parentLive, itemLive, priorLive, firstLive, head, next, prev,
      notFirst]
  refine Returns.of_eq runs ⟨rfl, ⟨⟨rfl, rfl, rfl, rfl, rfl⟩, ?_, fun _ _ => rfl, ?_⟩, ?_, ?_⟩
  · have shorter : (front ++ [prior, item]).erase item = front ++ [prior] := by
      rw [erase_of_split distinct joined, List.append_nil]
    have stillFirst : (front ++ [prior]).head? = some first := by
      rw [joined, List.head?_append] at isFirst
      simpa using isFirst
    have outside := distinct.not_mem_erase (a := item)
    rw [shorter] at outside ⊢
    exact (linked.removeLast stillFirst distinct).clear outside
  · intro node untouched
    have different : node ≠ item := fun same => untouched (same ▸ isChild)
    have notPrior : node ≠ prior := fun same => untouched (same ▸ priorIn)
    have notFirst : node ≠ first := fun same => untouched (same ▸ firstIn)
    simp [different, notPrior, notFirst]
  · simp
  · simp

theorem Lists.detachBetween {prior second : Addr} {front back : List Addr}
    (lists : heap.Lists parent (front ++ prior :: item :: second :: back)) :
    heap.Unlists parent (front ++ prior :: item :: second :: back) item := by
  have isChild : item ∈ front ++ prior :: item :: second :: back := by simp
  have priorIn : prior ∈ front ++ prior :: item :: second :: back := by simp
  have secondIn : second ∈ front ++ prior :: item :: second :: back := by simp
  have parentLive := lists.parentLive
  have itemLive := lists.live item isChild
  have priorLive := lists.live prior priorIn
  have secondLive := lists.live second secondIn
  have distinct := lists.distinct
  have linked := lists.linked
  have joined : front ++ prior :: item :: second :: back = (front ++ [prior]) ++ item :: second :: back := by simp
  have notHead : some item ≠ heap.childOf parent := by
    rw [linked.1]
    exact ne_head_of_split distinct joined (by simp)
  have run := linked.2
  rw [joined] at run
  have prev : heap.links.prev item = some prior := by simpa using run.at.1
  have next : heap.links.next item = some second := run.at.2
  have runs : heap.cjsonDetachItemViaPointer (some parent) (some item) =
      .ok (some item, heap.withLinks ((((heap.links.setNext prior (some second)).setPrev second
        (some prior)).setPrev item none).setNext item none)) := by
    simp [Heap.cjsonDetachItemViaPointer, parentLive, itemLive, priorLive, secondLive, next, prev, notHead]
  refine Returns.of_eq runs ⟨rfl, ⟨⟨rfl, rfl, rfl, rfl, rfl⟩, ?_, fun _ _ => rfl, ?_⟩, ?_, ?_⟩
  · have shorter : (front ++ prior :: item :: second :: back).erase item = front ++ prior :: second :: back := by
      rw [erase_of_split distinct joined, List.append_assoc]
      rfl
    have outside := distinct.not_mem_erase (a := item)
    rw [shorter] at outside ⊢
    exact (linked.removeInner distinct).clear outside
  · intro node untouched
    have different : node ≠ item := fun same => untouched (same ▸ isChild)
    have notPrior : node ≠ prior := fun same => untouched (same ▸ priorIn)
    have notSecond : node ≠ second := fun same => untouched (same ▸ secondIn)
    simp [different, notPrior, notSecond]
  · simp
  · simp

/-- `cjson_detach_item_via_pointer` takes a node out of its list. -/
theorem Lists.cjsonDetachItemViaPointer (lists : heap.Lists parent nodes) (inside : item ∈ nodes) :
    heap.Unlists parent nodes item := by
  rcases List.append_of_mem inside with ⟨front, back, rfl⟩
  rcases List.eq_nil_or_concat front with rfl | ⟨front, prior, rfl⟩
  · cases back with
    | nil => exact lists.detachOnly
    | cons second back => exact lists.detachFirst
  · rw [List.concat_eq_append, List.append_assoc] at *
    cases back with
    | nil => exact lists.detachLast
    | cons second back => exact lists.detachBetween

end Lists

/-! ## Lookup -/

theorem getArrayItemLoop_eq {before : Pointer} {nodes : List Addr}
    (run : heap.links.Run before nodes none)
    (live : ∀ node ∈ nodes, heap.allocated node = true) (index : Nat) :
    heap.getArrayItemLoop index nodes.head? = .ok nodes[index]? := by
  induction nodes generalizing before index with
  | nil =>
      cases index with
      | zero => rfl
      | succ index => rfl
  | cons node nodes hypothesis =>
      cases index with
      | zero => rfl
      | succ index =>
          have next : heap.links.next node = nodes.head? := by
            rw [run.2.1, Option.or_none]
          rw [getArrayItemLoop, List.head?_cons, if_neg (by simp), next_eq (live node List.mem_cons_self),
            Except.ok_bind, next, List.getElem?_cons_succ]
          exact hypothesis run.2.2 (fun later inside => live later (List.mem_cons_of_mem _ inside)) index

theorem Represents.getArrayItem (represents : heap.Represents forest stage) {array : Addr}
    (isLive : array ∈ forest.live) (closed : stage array = .closed) (index : Nat) :
    heap.getArrayItem (some array) index = .ok (forest.children array)[index]? := by
  rw [Heap.getArrayItem, if_neg (by simp), child_eq (represents.allocated isLive), Except.ok_bind,
    represents.heads array isLive (by simp [closed])]
  exact getArrayItemLoop_eq (represents.run array isLive closed)
    (fun node inside => represents.allocated (forest.closed inside).1) index

/-- A node that has children is no reference. -/
theorem Represents.leaf (represents : heap.Represents forest stage) {parent child : Addr}
    (isChild : child ∈ forest.children parent) : (heap.fieldsOf parent).type_.isReference = false := by
  cases reference : (heap.fieldsOf parent).type_.isReference with
  | false => rfl
  | true =>
      rw [represents.leaves parent (forest.closed isChild).2 reference] at isChild
      cases isChild

/-! ## Positions in a list -/

theorem split_at {nodes : List Addr} {which : Nat} (inside : which + 1 < nodes.length) :
    ∃ front prior second back, front.length = which ∧ nodes = front ++ prior :: second :: back := by
  refine ⟨nodes.take which, nodes[which], nodes[which + 1], nodes.drop (which + 2), ?_, ?_⟩
  · simp; omega
  · rw [← List.drop_eq_getElem_cons, ← List.drop_eq_getElem_cons, List.take_append_drop]

/-! ## Adding -/

section Adding

variable {parent child : Addr} (holds : CanHold forest parent child) {position : Nat}

/-- A root has been linked into the list of a node: what remains to be shown
about the links. -/
theorem Represents.attach (represents : heap.Represents forest stage)
    (fits : position ≤ (forest.children parent).length) (relinked : heap.Relinked after)
    (childOf : ∀ node, node ≠ parent -> after.childOf node = heap.childOf node)
    (links : ∀ node, node ≠ child -> node ∉ forest.children parent ->
      after.links.next node = heap.links.next node ∧ after.links.prev node = heap.links.prev node)
    (closed : stage parent = .closed)
    (linked : after.links.WellLinked (after.childOf parent)
      ((forest.children parent).insertIdx position child))
    (leaf : (heap.fieldsOf parent).type_.isReference = false) :
    after.Represents (holds.attach position) stage := by
  refine @Represents.relink _ _ _ _ represents (holds.attach position) parent relinked rfl
    (fun node different => OrderedForest.children_attach_of_ne different) childOf ?_ closed ?_ ?_ leaf
  · intro other node different inside
    apply links node
    · rintro rfl
      exact holds.root.2 other inside
    · intro inParent
      exact different (forest.unique inside inParent)
  · rw [CanHold.attach, OrderedForest.children_attach_self]
    exact linked
  · intro node root
    rcases holds.isRoot fits root with ⟨oldRoot, different⟩
    rcases links node different (oldRoot.2 parent) with ⟨next, prev⟩
    rw [next, prev]
    exact represents.roots node oldRoot

/-- `add_item_to_array` puts the item behind the last child, told for the whole
forest. -/
theorem Represents.addItemToArray (represents : heap.Represents forest stage) (closed : stage parent = .closed)
    (leaf : (heap.fieldsOf parent).type_.isReference = false) :
    Returns (heap.addItemToArray (some parent) (some child)) fun result =>
      result.1 = true ∧ heap.Relinked result.2 ∧
        result.2.Represents (holds.attach (forest.children parent).length) stage := by
  have childLive := represents.allocated holds.root.1
  have ends := (represents.roots child holds.root).1
  have adds := (represents.lists holds.isLive closed).addItemToArray childLive holds.ne.symm
    (holds.root.2 parent) ends
  apply adds.mono
  rintro result ⟨succeeds, relists⟩
  refine ⟨succeeds, relists.relinked,
    represents.attach holds le_rfl relists.relinked relists.childOf ?_ closed ?_ leaf⟩
  · intro node different notIn
    apply relists.links
    exact fun touched => notIn ((List.mem_cons.mp touched).resolve_left different)
  · rw [List.insertIdx_length_self]
    exact relists.linked

theorem Represents.insertFront (represents : heap.Represents forest stage) (closed : stage parent = .closed)
    (leaf : (heap.fieldsOf parent).type_.isReference = false) {second : Addr} {back : List Addr}
    (split : forest.children parent = second :: back) :
    Returns (heap.cjsonInsertItemInArray (some parent) (0 : Nat) (some child)) fun result =>
      result.1 = true ∧ heap.Relinked result.2 ∧ result.2.Represents (holds.attach 0) stage := by
  have parentLive := represents.allocated holds.isLive
  have childLive := represents.allocated holds.root.1
  have secondIn : second ∈ forest.children parent := by simp [split]
  have secondLive := represents.allocated (forest.closed secondIn).1
  have found := represents.getArrayItem holds.isLive closed 0
  have linked := represents.wellLinked holds.isLive closed
  have head : heap.childOf parent = some second := by
    rw [linked.1, split]
    rfl
  rw [split, List.getElem?_cons_zero] at found
  have runs : heap.cjsonInsertItemInArray (some parent) (0 : Nat) (some child) =
      .ok (true, (heap.withLinks (((heap.links.setNext child (some second)).setPrev child
        (heap.links.prev second)).setPrev second (some child))).withChild parent (some child)) := by
    simp [Heap.cjsonInsertItemInArray, found, parentLive, childLive, secondLive, head]
  refine Returns.of_eq runs ⟨rfl, ⟨rfl, rfl, rfl, rfl, rfl⟩, ?_⟩
  apply represents.attach holds (Nat.zero_le _) _ _ _ closed _ leaf
  · exact ⟨rfl, rfl, rfl, rfl, rfl⟩
  · intro node different
    simp [different]
  · intro node different notIn
    have notSecond : node ≠ second := fun same => notIn (same ▸ secondIn)
    simp [different, notSecond]
  · have distinct := forest.distinct parent
    have outside := holds.root.2 parent
    rw [split] at linked distinct outside ⊢
    simpa using linked.insertFirst distinct outside

theorem Represents.insertBetween (represents : heap.Represents forest stage) (closed : stage parent = .closed)
    (leaf : (heap.fieldsOf parent).type_.isReference = false) {prior second : Addr}
    {front back : List Addr} {which : Nat} (length : which = front.length + 1)
    (split : forest.children parent = front ++ prior :: second :: back) :
    Returns (heap.cjsonInsertItemInArray (some parent) which (some child)) fun result =>
      result.1 = true ∧ heap.Relinked result.2 ∧ result.2.Represents (holds.attach which) stage := by
  have parentLive := represents.allocated holds.isLive
  have childLive := represents.allocated holds.root.1
  have distinct := forest.distinct parent
  have outside := holds.root.2 parent
  have priorIn : prior ∈ forest.children parent := by simp [split]
  have secondIn : second ∈ forest.children parent := by simp [split]
  have priorLive := represents.allocated (forest.closed priorIn).1
  have secondLive := represents.allocated (forest.closed secondIn).1
  have different : child ≠ second := fun same => outside (same ▸ secondIn)
  have linked := represents.wellLinked holds.isLive closed
  have found := represents.getArrayItem holds.isLive closed which
  have joined : forest.children parent = (front ++ [prior]) ++ second :: back := by simp [split]
  have notHead : some second ≠ heap.childOf parent := by
    rw [linked.1]
    exact ne_head_of_split distinct joined (by simp)
  have prev : heap.links.prev second = some prior := by
    have run := linked.2
    rw [joined] at run
    simpa using run.at.1
  have here : (forest.children parent)[which]? = some second := by
    rw [joined, length]
    simp
  rw [here] at found
  have runs : heap.cjsonInsertItemInArray (some parent) which (some child) =
      .ok (true, heap.withLinks ((((heap.links.setNext child (some second)).setPrev child
        (some prior)).setPrev second (some child)).setNext prior (some child))) := by
    simp [Heap.cjsonInsertItemInArray, found, parentLive, childLive, secondLive, notHead, prev,
      priorLive, different]
  refine Returns.of_eq runs ⟨rfl, ⟨rfl, rfl, rfl, rfl, rfl⟩, ?_⟩
  apply represents.attach holds _ _ _ _ closed _ leaf
  · simp [joined, length]
  · exact ⟨rfl, rfl, rfl, rfl, rfl⟩
  · intro node _
    rfl
  · intro node different notIn
    have notPrior : node ≠ prior := fun same => notIn (same ▸ priorIn)
    have notSecond : node ≠ second := fun same => notIn (same ▸ secondIn)
    simp [different, notPrior, notSecond]
  · have inserted : (forest.children parent).insertIdx which child =
        front ++ prior :: child :: second :: back := by
      have position : which = (front ++ [prior]).length := by simp [length]
      rw [joined, position, insertIdx_append_length, List.append_assoc]
      rfl
    rw [inserted]
    rw [split] at linked distinct outside
    exact linked.insertInner distinct outside

/-- `cjson_insert_item_in_array` puts the item at the index, or behind the last
child if there is no such index. -/
theorem Represents.cjsonInsertItemInArray (represents : heap.Represents forest stage)
    (closed : stage parent = .closed) (leaf : (heap.fieldsOf parent).type_.isReference = false) (which : Nat) :
    Returns (heap.cjsonInsertItemInArray (some parent) which (some child)) fun result =>
      result.1 = true ∧ heap.Relinked result.2 ∧
        result.2.Represents (holds.attach (min which (forest.children parent).length)) stage := by
  by_cases inside : which < (forest.children parent).length
  · rw [Nat.min_eq_left (Nat.le_of_lt inside)]
    cases which with
    | zero =>
        rcases List.exists_cons_of_length_pos inside with ⟨second, back, split⟩
        exact represents.insertFront holds closed leaf split
    | succ which =>
        rcases split_at inside with ⟨front, prior, second, back, length, split⟩
        exact represents.insertBetween holds closed leaf (congrArg (· + 1) length.symm) split
  · have outside : (forest.children parent).length ≤ which := Nat.le_of_not_lt inside
    have found := represents.getArrayItem holds.isLive closed which
    rw [List.getElem?_eq_none outside] at found
    have runs : heap.cjsonInsertItemInArray (some parent) which (some child) =
        heap.addItemToArray (some parent) (some child) := by
      simp [Heap.cjsonInsertItemInArray, found]
    rw [runs, Nat.min_eq_right outside]
    exact represents.addItemToArray holds closed leaf

end Adding

/-! ## Detaching -/

section Detaching

variable {parent item : Addr}

theorem root_of_detach {node : Addr} (root : (forest.detach item).IsRoot node) :
    node = item ∨ forest.IsRoot node := by
  by_cases same : node = item
  · exact Or.inl same
  · refine Or.inr ⟨root.1, ?_⟩
    intro other inside
    exact root.2 other ((List.mem_erase_of_ne same).mpr inside)

/-- A child has been taken out of its list: what remains to be shown about the
links. -/
theorem Represents.detach (represents : heap.Represents forest stage)
    (isChild : item ∈ forest.children parent) (relinked : heap.Relinked after)
    (childOf : ∀ node, node ≠ parent -> after.childOf node = heap.childOf node)
    (links : ∀ node, node ∉ forest.children parent ->
      after.links.next node = heap.links.next node ∧ after.links.prev node = heap.links.prev node)
    (closed : stage parent = .closed)
    (linked : after.links.WellLinked (after.childOf parent) ((forest.children parent).erase item))
    (alone : after.links.next item = none ∧ after.links.prev item = none) :
    after.Represents (forest.detach item) stage := by
  refine @Represents.relink _ _ _ _ represents (forest.detach item) parent relinked rfl
    (fun node different => OrderedForest.children_detach_of_ne isChild different) childOf ?_ closed
    linked ?_ (represents.leaf isChild)
  · intro other node different inside
    apply links node
    intro inParent
    exact different (forest.unique inside inParent)
  · intro node root
    rcases root_of_detach root with rfl | oldRoot
    · exact alone
    · rcases links node (oldRoot.2 parent) with ⟨next, prev⟩
      rw [next, prev]
      exact represents.roots node oldRoot

/-- What `cjson_detach_item_via_pointer` does to a child, in terms of the forest: it
becomes a root, with everything that is below it. -/
def Detaches (heap : Heap) (forest : OrderedForest Addr) (stage : Addr -> Stage) (parent item : Addr) :
    Prop :=
  Returns (heap.cjsonDetachItemViaPointer (some parent) (some item)) fun result =>
    result.1 = some item ∧ heap.Relinked result.2 ∧ result.2.Represents (forest.detach item) stage

variable (represents : heap.Represents forest stage) (closed : stage parent = .closed)

include represents closed

/-- `cjson_detach_item_via_pointer` takes a child out of its list. -/
theorem Represents.cjsonDetachItemViaPointer (isChild : item ∈ forest.children parent) :
    heap.Detaches forest stage parent item := by
  have unlists := (represents.lists (forest.closed isChild).2 closed).cjsonDetachItemViaPointer isChild
  apply Returns.mono unlists
  rintro result ⟨same, relists, alone⟩
  exact ⟨same, relists.relinked, represents.detach isChild relists.relinked relists.childOf relists.links closed
    relists.linked alone⟩

end Detaching

end Heap
end CJson
