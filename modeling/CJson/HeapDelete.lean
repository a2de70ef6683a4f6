import CJson.HeapForest

/-!
# Deleting and replacing

`cjson_delete` walks a list and the trees under it, and frees each node once:
the trees of siblings are apart, and nothing is below its own child.  What the
walk frees is exactly the tree of the node it is called with, provided this node
is a root.
-/

namespace CJson
namespace Heap

open OrderedForest

variable {heap after : Heap} {forest : OrderedForest Addr} {stage : Addr -> Stage}

/-- Some nodes have been freed, and nothing else has happened but that it was
recorded.  The cells keep what was in them, which is why a pointer into them is still
there and only reading through it is a fault. -/
structure Freed (heap after : Heap) (dead : Addr -> Prop) : Prop where
  links : after.links = heap.links
  childOf : after.childOf = heap.childOf
  fieldsOf : after.fieldsOf = heap.fieldsOf
  unused : after.unused = heap.unused
  hooks : after.hooks = heap.hooks
  allocated : ∀ node, after.allocated node = true ↔ heap.allocated node = true ∧ ¬ dead node

theorem Freed.refl (heap : Heap) {dead : Addr -> Prop} (none : ∀ node, ¬ dead node) :
    heap.Freed heap dead :=
  ⟨rfl, rfl, rfl, rfl, rfl, fun node => (and_iff_left (none node)).symm⟩

theorem Freed.trans {later : Heap} {dead gone : Addr -> Prop} (first : heap.Freed after dead)
    (second : after.Freed later gone) : heap.Freed later (fun node => dead node ∨ gone node) where
  links := second.links.trans first.links
  childOf := second.childOf.trans first.childOf
  fieldsOf := second.fieldsOf.trans first.fieldsOf
  unused := second.unused.trans first.unused
  hooks := second.hooks.trans first.hooks
  allocated node := by rw [second.allocated, first.allocated, not_or, and_assoc]

theorem Freed.congr {dead gone : Addr -> Prop} (freed : heap.Freed after dead)
    (same : ∀ node, dead node ↔ gone node) : heap.Freed after gone :=
  { freed with allocated := fun node => by rw [freed.allocated, same] }

/-- What is recorded before and after does not matter. -/
theorem Freed.of_record {dead : Addr -> Prop} {releases : List Release}
    (freed : (heap.record releases).Freed after dead) : heap.Freed after dead :=
  { freed with }

theorem Freed.record {dead : Addr -> Prop} (freed : heap.Freed after dead) (releases : List Release) :
    heap.Freed (after.record releases) dead :=
  { freed with }

theorem release_freed {node : Addr} (live : heap.allocated node = true) :
    Returns (heap.release (some node)) fun after => heap.Freed after (fun other => other = node) := by
  have runs : heap.release (some node) =
      .ok { heap with allocated := Function.update heap.allocated node false } := by
    rw [release, access_eq live]
    rfl
  refine Returns.of_eq runs ⟨rfl, rfl, rfl, rfl, rfl, ?_⟩
  intro other
  by_cases same : other = node
  · simp [same]
  · simp [same]

/-- The nodes of the trees under some nodes. -/
def BelowAny (forest : OrderedForest Addr) (nodes : List Addr) (node : Addr) : Prop :=
  ∃ top ∈ nodes, forest.Below top node

/-- What `cjson_delete` does from the head of a list on: every node below one of the
list is freed, and no other one.  It is stated for lists, as the function itself goes
from sibling to sibling. -/
def Deletes (heap : Heap) (forest : OrderedForest Addr) (nodes : List Addr) : Prop :=
  Settles (fun fuel => cjsonDelete fuel heap nodes.head?) fun after =>
    heap.Freed after (BelowAny forest nodes)

theorem deletes_nil : heap.Deletes forest [] := by
  apply Settles.succ
  apply Settles.ok
  apply Freed.refl
  simp [BelowAny]

theorem below_iff {node lower : Addr} :
    forest.Below node lower ↔ BelowAny forest (forest.children node) lower ∨ lower = node := by
  constructor
  · intro below
    exact below.cases.symm
  · rintro (⟨child, isChild, below⟩ | rfl)
    · exact below.trans (OrderedForest.Below.step .refl isChild)
    · exact .refl

theorem belowAny_cons {node lower : Addr} {rest : List Addr} :
    BelowAny forest (node :: rest) lower ↔ forest.Below node lower ∨ BelowAny forest rest lower := by
  simp [BelowAny]

/-- The trees of a list are deleted one by one, if the children of each node
can be. -/
theorem deletes_list (represents : heap.Represents forest stage) (known : ∀ node, stage node ≠ .loose)
    {nodes : List Addr}
    (inner : ∀ node ∈ nodes, ∀ current dead, heap.Freed current dead ->
      (∀ lower, BelowAny forest (forest.children node) lower -> ¬ dead lower) ->
      current.Deletes forest (forest.children node))
    {before : Pointer} (run : heap.links.Run before nodes none) (live : ∀ node ∈ nodes, node ∈ forest.live)
    (apart : nodes.Pairwise
      (fun first second => ∀ node, forest.Below first node -> ¬ forest.Below second node)) :
    ∀ current dead, heap.Freed current dead -> (∀ node, BelowAny forest nodes node -> ¬ dead node) ->
      current.Deletes forest nodes := by
  induction nodes generalizing before with
  | nil =>
      intro current dead freed alive
      exact deletes_nil
  | cons node rest hypothesis =>
      intro current dead freed alive
      rcases List.pairwise_cons.mp apart with ⟨nodeApart, restApart⟩
      have nodeLive : current.allocated node = true := by
        apply (freed.allocated node).mpr
        exact ⟨represents.allocated (live node List.mem_cons_self),
          alive node ⟨node, List.mem_cons_self, .refl⟩⟩
      have next : current.links.next node = rest.head? := by
        rw [freed.links, run.2.1, Option.or_none]
      have child : current.childOf node = (forest.children node).head? := by
        rw [freed.childOf]
        exact represents.heads node (live node List.mem_cons_self) (known node)
      have childrenFirst : Settles (fun fuel =>
          if (!(current.fieldsOf node).type_.isReference && (current.childOf node).isSome) = true then
            cjsonDelete fuel (current.record [.child (current.fieldsOf node).type_]) (current.childOf node)
          else .ok current) fun middle => current.Freed middle (BelowAny forest (forest.children node)) := by
        rw [freed.fieldsOf, child]
        cases children : forest.children node with
        | nil =>
            have nothing : ∀ lower, ¬ BelowAny forest [] lower := by simp [BelowAny]
            have settled : Settles (fun _ => (Except.ok current : Except MemoryFault Heap))
                fun middle => current.Freed middle (BelowAny forest []) :=
              Settles.ok (Freed.refl current nothing)
            exact settled.congr (fun fuel => by simp)
        | cons first others =>
            have leaf : (heap.fieldsOf node).type_.isReference = false := by
              apply @Represents.leaf _ _ _ represents node first
              simp [children]
            have deletes := inner node List.mem_cons_self
              (current.record [.child (heap.fieldsOf node).type_]) dead (freed.record _) (by
                intro lower below
                apply alive lower
                exact belowAny_cons.mpr (Or.inl (below_iff.mpr (Or.inl below))))
            rw [children] at deletes
            have settled := deletes.mono fun middle => Freed.of_record
            exact Settles.congr settled (fun fuel => by simp [leaf])
      apply Settles.succ
      have unfolded : ∀ fuel, cjsonDelete (fuel + 1) current (node :: rest).head? =
          ((if (!(current.fieldsOf node).type_.isReference && (current.childOf node).isSome) = true then
              cjsonDelete fuel (current.record [.child (current.fieldsOf node).type_]) (current.childOf node)
            else .ok current) >>= fun middle : Heap =>
              (middle.record (current.fieldsOf node).releases).release (some node) >>= fun released =>
                cjsonDelete fuel released rest.head?) := by
        intro fuel
        by_cases descends :
          (!(current.fieldsOf node).type_.isReference && (current.childOf node).isSome) = true
        · rw [if_pos descends, List.head?_cons, cjsonDelete, if_neg (by simp), next_eq nodeLive,
            fields_eq nodeLive, child_eq nodeLive, next]
          simp only [Except.ok_bind, if_pos descends]
        · rw [if_neg descends, List.head?_cons, cjsonDelete, if_neg (by simp), next_eq nodeLive,
            fields_eq nodeLive, child_eq nodeLive, next]
          simp only [Except.ok_bind, if_neg descends]
      refine Settles.congr ?_ unfolded
      apply Settles.bind childrenFirst
      intro middle gone
      have recorded := gone.record (current.fieldsOf node).releases
      apply Settles.bind (Settles.of_returns (release_freed _))
      · intro released freedNode
        have trees := (recorded.trans freedNode).congr (fun lower => below_iff.symm)
        have remaining := hypothesis (fun other inside => inner other (List.mem_cons_of_mem _ inside))
          run.2.2 (fun other inside => live other (List.mem_cons_of_mem _ inside)) restApart released _
          (freed.trans trees) (by
            intro lower below
            have alsoBelow := below
            rcases below with ⟨top, inside, under⟩
            rintro (isDead | underNode)
            · exact alive lower (belowAny_cons.mpr (Or.inr alsoBelow)) isDead
            · exact nodeApart top inside lower underNode under)
        apply remaining.mono
        intro final freedRest
        exact (trees.trans freedRest).congr (fun lower => belowAny_cons.symm)
      · apply (gone.allocated node).mpr
        refine ⟨nodeLive, ?_⟩
        rintro ⟨lower, isChild, below⟩
        exact OrderedForest.not_below_child isChild below

theorem children_apart (parent : Addr) : (forest.children parent).Pairwise
    (fun first second => ∀ node, forest.Below first node -> ¬ forest.Below second node) := by
  apply List.Pairwise.imp_of_mem _ (forest.distinct parent)
  intro first second firstIn secondIn different node left right
  exact different (OrderedForest.siblings_apart firstIn secondIn left right)

/-- The children of a node can be deleted, by induction over the tree: what is below a
child is gone before the child is, and the later siblings follow. -/
theorem deletes_children (represents : heap.Represents forest stage) (known : ∀ node, stage node ≠ .loose)
    (node : Addr) :
    node ∈ forest.live -> ∀ current dead, heap.Freed current dead ->
      (∀ lower, BelowAny forest (forest.children node) lower -> ¬ dead lower) ->
      current.Deletes forest (forest.children node) := by
  induction node using forest.founded.induction with
  | _ node hypothesis =>
      intro isLive current dead freed alive
      have run : ∃ before, heap.links.Run before (forest.children node) none := by
        by_cases closed : stage node = .closed
        · exact ⟨_, represents.run node isLive closed⟩
        · exact ⟨_, represents.openRun node isLive closed⟩
      rcases run with ⟨before, run⟩
      have live : ∀ child ∈ forest.children node, child ∈ forest.live :=
        fun child isChild => (forest.closed isChild).1
      exact deletes_list represents known (fun child isChild => hypothesis child isChild (live child isChild)) run
        live (children_apart node) current dead freed alive

/-- What is left when a tree has been freed. -/
theorem Represents.freed (represents : heap.Represents forest stage) {top : Addr}
    (root : forest.IsRoot top) (freed : heap.Freed after (forest.Below top)) :
    after.Represents (forest.remove top root) stage where
  live node := by
    rw [freed.allocated, represents.live]
    rfl
  bounded node isLive := by
    rw [freed.unused]
    exact represents.bounded node isLive.1
  heads node isLive known := by
    rw [freed.childOf, OrderedForest.children_remove isLive.2]
    exact represents.heads node isLive.1 known
  run node isLive closed := by
    rw [freed.links, OrderedForest.children_remove isLive.2]
    exact represents.run node isLive.1 closed
  openRun node isLive opened := by
    rw [freed.links, OrderedForest.children_remove isLive.2]
    exact represents.openRun node isLive.1 opened
  roots node isRoot := by
    rw [freed.links]
    exact represents.roots node (OrderedForest.isRoot_of_remove isRoot).1
  leaves node isLive reference := by
    rw [freed.fieldsOf] at reference
    rw [OrderedForest.children_remove isLive.2]
    exact represents.leaves node isLive.1 reference

/-- `cjson_delete` frees the tree of a root.  It ends, since no node is below itself,
and it leaves the other trees and all fields as they are. -/
theorem Represents.cjsonDelete (represents : heap.Represents forest stage)
    (known : ∀ node, stage node ≠ .loose) {top : Addr} (root : forest.IsRoot top) :
    Settles (fun fuel => cjsonDelete fuel heap (some top)) fun after =>
      after.Represents (forest.remove top root) stage ∧ after.fieldsOf = heap.fieldsOf := by
  have ends := represents.roots top root
  have run : heap.links.Run none [top] none := ⟨ends.2, ends.1, trivial⟩
  have deletes : heap.Deletes forest [top] := by
    apply deletes_list represents known _ run _ _ heap (fun _ => False) (Freed.refl heap (fun _ => id))
    · intro node _
      exact id
    · intro node inside
      rw [List.mem_singleton.mp inside]
      exact deletes_children represents known top root.1
    · intro node inside
      rw [List.mem_singleton.mp inside]
      exact root.1
    · exact List.pairwise_singleton _ _
  apply deletes.mono
  intro after freed
  exact ⟨represents.freed root (freed.congr (fun node => by simp [BelowAny])), freed.fieldsOf⟩

/-! ## Replacing -/

section Replacing

variable {parent item replacement : Addr}

variable (holds : CanHold forest parent replacement)

/-- A child has been replaced: what remains to be shown about the links.  The list of
the parent must be well linked with the replacement in it, the item must be alone, and
nothing outside of the list may have changed. -/
theorem Represents.exchange (represents : heap.Represents forest stage)
    (isChild : item ∈ forest.children parent) (relinked : heap.Relinked after)
    (childOf : ∀ node, node ≠ parent -> after.childOf node = heap.childOf node)
    (links : ∀ node, node ≠ replacement -> node ∉ forest.children parent ->
      after.links.next node = heap.links.next node ∧ after.links.prev node = heap.links.prev node)
    (closed : stage parent = .closed)
    (linked : after.links.WellLinked (after.childOf parent) ((holds.exchange item).children parent))
    (alone : after.links.next item = none ∧ after.links.prev item = none) :
    after.Represents (holds.exchange item) stage := by
  refine @Represents.relink _ _ _ _ represents (holds.exchange item) parent relinked rfl
    (fun node different => holds.children_exchange_of_ne isChild different) childOf ?_ closed linked ?_
    (represents.leaf isChild)
  · intro other node different inside
    apply links node
    · rintro rfl
      exact holds.root.2 other inside
    · intro inParent
      exact different (forest.unique inside inParent)
  · intro node root
    rcases (holds.detach item).isRoot (CanHold.exchange_fits isChild) root with
      ⟨oldRoot, different⟩
    rcases root_of_detach oldRoot with rfl | older
    · exact alone
    · rcases links node different (older.2 parent) with ⟨next, prev⟩
      rw [next, prev]
      exact represents.roots node older

/-- What `cjson_replace_item_via_pointer` does to a child before it deletes it and
records that.  The function is cut in two here: the relinking, which is told by a
change of the forest, and the call of `cjson_delete` on a child that is a root by
then. -/
def Exchanges (heap : Heap) (holds : CanHold forest parent replacement) (stage : Addr -> Stage)
    (item : Addr) : Prop :=
  ∃ after, heap.Relinked after ∧ after.Represents (holds.exchange item) stage ∧
    ∀ fuel, heap.cjsonReplaceItemViaPointer fuel (some parent) (some item) (some replacement) = (do
      let final ← Heap.cjsonDelete fuel (after.recordChild (some parent) (some item)) (some item)
      .ok (true, final))

variable (represents : heap.Represents forest stage) (closed : stage parent = .closed)

include represents closed

theorem Represents.exchangeOnly (split : forest.children parent = [item]) :
    heap.Exchanges holds stage item := by
  have isChild : item ∈ forest.children parent := by simp [split]
  have parentLive := represents.allocated (forest.closed isChild).2
  have itemLive := represents.allocated (forest.closed isChild).1
  have replacementLive := represents.allocated holds.root.1
  have different : replacement ≠ item := by
    rintro rfl
    exact holds.root.2 parent isChild
  have linked := represents.wellLinked (forest.closed isChild).2 closed
  have head : heap.childOf parent = some item := by
    rw [linked.1, split]
    rfl
  have exchanged := holds.children_exchange_first split
  rw [split] at linked
  have next : heap.links.next item = none := linked.2.2.1
  have prev : heap.links.prev item = some item := linked.2.1
  refine ⟨(heap.withChild parent (some replacement)).withLinks
    (((((heap.links.setNext replacement none).setPrev replacement (some item)).setPrev replacement
      (some replacement)).setNext item none).setPrev item none), ⟨rfl, rfl, rfl, rfl, rfl⟩, ?_, ?_⟩
  · apply represents.exchange holds isChild _ _ _ closed
    · rw [exchanged]
      simp [Links.WellLinked, different]
    · simp
    · exact ⟨rfl, rfl, rfl, rfl, rfl⟩
    · intro node different
      simp [different]
    · intro node different notIn
      have notItem : node ≠ item := fun same => notIn (same ▸ isChild)
      simp [different, notItem]
  · intro fuel
    simp [Heap.cjsonReplaceItemViaPointer, parentLive, itemLive, replacementLive, head, next, prev,
      different, different.symm]

theorem Represents.exchangeFirst {second : Addr} {back : List Addr}
    (split : forest.children parent = item :: second :: back) : heap.Exchanges holds stage item := by
  have isChild : item ∈ forest.children parent := by simp [split]
  have secondIn : second ∈ forest.children parent := by simp [split]
  have parentLive := represents.allocated (forest.closed isChild).2
  have itemLive := represents.allocated (forest.closed isChild).1
  have secondLive := represents.allocated (forest.closed secondIn).1
  have replacementLive := represents.allocated holds.root.1
  have distinct := forest.distinct parent
  have outside := holds.root.2 parent
  have different : replacement ≠ item := fun same => outside (same ▸ isChild)
  have linked := represents.wellLinked (forest.closed isChild).2 closed
  have head : heap.childOf parent = some item := by
    rw [linked.1, split]
    rfl
  have exchanged := holds.children_exchange_first split
  rw [split] at linked distinct outside
  have notIn : item ∉ second :: back := (List.nodup_cons.mp distinct).1
  have notSecond : item ≠ second := fun same => notIn (same ▸ List.mem_cons_self)
  have next : heap.links.next item = some second := linked.2.2.1
  have notAlone : heap.links.prev item ≠ some item := by
    rw [linked.2.1, List.getLast?_cons_cons]
    exact fun same => notIn (List.mem_of_getLast? same)
  refine ⟨(heap.withChild parent (some replacement)).withLinks
    (((((heap.links.setNext replacement (some second)).setPrev replacement (heap.links.prev item)).setPrev
      second (some replacement)).setNext item none).setPrev item none), ⟨rfl, rfl, rfl, rfl, rfl⟩, ?_, ?_⟩
  · apply represents.exchange holds isChild _ _ _ closed
    · rw [exchanged]
      have replaced := linked.replaceFirst distinct (fun inside => outside (List.mem_cons_of_mem _ inside))
      have gone : item ∉ replacement :: second :: back := by
        intro inside
        rcases List.mem_cons.mp inside with same | later
        · exact different same.symm
        · exact notIn later
      simpa [Links.setNext_setPrev] using replaced.clear gone
    · simp
    · exact ⟨rfl, rfl, rfl, rfl, rfl⟩
    · intro node different
      simp [different]
    · intro node different notChild
      have notItem : node ≠ item := fun same => notChild (same ▸ isChild)
      have notSecond : node ≠ second := fun same => notChild (same ▸ secondIn)
      simp [different, notItem, notSecond]
  · intro fuel
    simp [Heap.cjsonReplaceItemViaPointer, parentLive, itemLive, replacementLive, secondLive, head, next,
      notAlone, different, different.symm, notSecond]

theorem Represents.exchangeLast {prior : Addr} {front : List Addr}
    (split : forest.children parent = front ++ [prior, item]) : heap.Exchanges holds stage item := by
  have isChild : item ∈ forest.children parent := by simp [split]
  have priorIn : prior ∈ forest.children parent := by simp [split]
  have parentLive := represents.allocated (forest.closed isChild).2
  have itemLive := represents.allocated (forest.closed isChild).1
  have priorLive := represents.allocated (forest.closed priorIn).1
  have replacementLive := represents.allocated holds.root.1
  have distinct := forest.distinct parent
  have outside := holds.root.2 parent
  have different : replacement ≠ item := fun same => outside (same ▸ isChild)
  have linked := represents.wellLinked (forest.closed isChild).2 closed
  have joined : forest.children parent = (front ++ [prior]) ++ [item] := by simp [split]
  rcases Option.isSome_iff_exists.mp (List.isSome_head?.mpr (List.ne_nil_of_mem isChild)) with
    ⟨first, isFirst⟩
  have firstIn := List.mem_of_mem_head? isFirst
  have firstLive := represents.allocated (forest.closed firstIn).1
  have head : heap.childOf parent = some first := linked.1.trans isFirst
  have notFirst : first ≠ item := by
    intro same
    apply ne_head_of_split distinct joined (by simp)
    rw [isFirst, same]
  have run := linked.2
  rw [joined] at run
  have prev : heap.links.prev item = some prior := by simpa using run.at.1
  have next : heap.links.next item = none := run.at.2
  refine ⟨heap.withLinks ((((((heap.links.setNext replacement none).setPrev replacement
    (some prior)).setNext prior (some replacement)).setPrev first (some replacement)).setNext item
      none).setPrev item none), ⟨rfl, rfl, rfl, rfl, rfl⟩, ?_, ?_⟩
  · apply represents.exchange holds isChild _ _ _ closed
    · have stillFirst : (front ++ [prior]).head? = some first := by
        rw [joined, List.head?_append] at isFirst
        simpa using isFirst
      rw [holds.children_exchange joined, List.append_assoc]
      have notIn := (forest.distinct parent).not_mem_erase (a := item)
      rw [erase_of_split distinct joined, List.append_nil] at notIn
      rw [split] at linked distinct
      have replaced := linked.replaceLast stillFirst distinct (fun inside =>
        outside (joined ▸ List.mem_append_left _ inside))
      have gone : item ∉ front ++ [prior, replacement] := by
        intro inside
        rw [show front ++ [prior, replacement] = (front ++ [prior]) ++ [replacement] by simp] at inside
        rcases List.mem_append.mp inside with stays | new
        · exact notIn stays
        · exact different (List.mem_singleton.mp new).symm
      simpa [Links.setNext_setPrev] using replaced.clear gone
    · simp
    · exact ⟨rfl, rfl, rfl, rfl, rfl⟩
    · intro node _
      rfl
    · intro node different notChild
      have notItem : node ≠ item := fun same => notChild (same ▸ isChild)
      have notPrior : node ≠ prior := fun same => notChild (same ▸ priorIn)
      have notFirst : node ≠ first := fun same => notChild (same ▸ firstIn)
      simp [different, notItem, notPrior, notFirst]
  · intro fuel
    simp [Heap.cjsonReplaceItemViaPointer, parentLive, itemLive, replacementLive, priorLive, firstLive,
      head, next, prev, different, notFirst]

theorem Represents.exchangeBetween {prior second : Addr} {front back : List Addr}
    (split : forest.children parent = front ++ prior :: item :: second :: back) :
    heap.Exchanges holds stage item := by
  have isChild : item ∈ forest.children parent := by simp [split]
  have priorIn : prior ∈ forest.children parent := by simp [split]
  have secondIn : second ∈ forest.children parent := by simp [split]
  have parentLive := represents.allocated (forest.closed isChild).2
  have itemLive := represents.allocated (forest.closed isChild).1
  have priorLive := represents.allocated (forest.closed priorIn).1
  have secondLive := represents.allocated (forest.closed secondIn).1
  have replacementLive := represents.allocated holds.root.1
  have distinct := forest.distinct parent
  have outside := holds.root.2 parent
  have different : replacement ≠ item := fun same => outside (same ▸ isChild)
  have linked := represents.wellLinked (forest.closed isChild).2 closed
  have joined : forest.children parent = (front ++ [prior]) ++ item :: second :: back := by simp [split]
  have notHead : heap.childOf parent ≠ some item := by
    rw [linked.1]
    exact (ne_head_of_split distinct joined (by simp)).symm
  have hasHead : ∃ first, heap.childOf parent = some first := by
    rw [linked.1]
    exact Option.isSome_iff_exists.mp (List.isSome_head?.mpr (List.ne_nil_of_mem isChild))
  have run := linked.2
  rw [joined] at run
  have prev : heap.links.prev item = some prior := by simpa using run.at.1
  have next : heap.links.next item = some second := run.at.2
  refine ⟨heap.withLinks ((((((heap.links.setNext replacement (some second)).setPrev replacement
    (some prior)).setPrev second (some replacement)).setNext prior (some replacement)).setNext item
      none).setPrev item none), ⟨rfl, rfl, rfl, rfl, rfl⟩, ?_, ?_⟩
  · apply represents.exchange holds isChild _ _ _ closed
    · rw [holds.children_exchange joined, List.append_assoc]
      have notIn := (forest.distinct parent).not_mem_erase (a := item)
      rw [erase_of_split distinct joined] at notIn
      rw [joined] at outside
      rw [split] at linked distinct
      have replaced := linked.replaceInner distinct
        (fun inside => outside (List.mem_append_left _ inside))
        (fun inside => outside (List.mem_append_right _ (List.mem_cons_of_mem _ inside)))
      have gone : item ∉ front ++ prior :: replacement :: second :: back := by
        intro inside
        apply notIn
        simp only [List.mem_append, List.mem_cons] at inside ⊢
        have notNew := different.symm
        tauto
      simpa [Links.setNext_setPrev] using replaced.clear gone
    · simp
    · exact ⟨rfl, rfl, rfl, rfl, rfl⟩
    · intro node _
      rfl
    · intro node different notChild
      have notItem : node ≠ item := fun same => notChild (same ▸ isChild)
      have notPrior : node ≠ prior := fun same => notChild (same ▸ priorIn)
      have notSecond : node ≠ second := fun same => notChild (same ▸ secondIn)
      simp [different, notItem, notPrior, notSecond]
  · intro fuel
    rcases hasHead with ⟨first, head⟩
    rw [head] at notHead
    have notFirst : first ≠ item := fun same => notHead (same ▸ rfl)
    simp [Heap.cjsonReplaceItemViaPointer, parentLive, itemLive, replacementLive, priorLive, secondLive,
      head, next, prev, different, notFirst]

theorem Represents.exchanges (isChild : item ∈ forest.children parent) :
    heap.Exchanges holds stage item := by
  rcases List.append_of_mem isChild with ⟨front, back, split⟩
  rcases List.eq_nil_or_concat front with rfl | ⟨front, prior, rfl⟩
  · cases back with
    | nil => exact represents.exchangeOnly holds closed split
    | cons second back => exact represents.exchangeFirst holds closed split
  · rw [List.concat_eq_append, List.append_assoc] at split
    cases back with
    | nil => exact represents.exchangeLast holds closed split
    | cons second back => exact represents.exchangeBetween holds closed split

/-- `cjson_replace_item_via_pointer` puts the replacement where the child was,
and deletes the child. -/
theorem Represents.cjsonReplaceItemViaPointer (known : ∀ node, stage node ≠ .loose)
    (isChild : item ∈ forest.children parent) :
    Settles (fun fuel => heap.cjsonReplaceItemViaPointer fuel (some parent) (some item) (some replacement))
      fun result => result.1 = true ∧ result.2.fieldsOf = heap.fieldsOf ∧ result.2.Represents
        ((holds.exchange item).remove item (holds.isRoot_exchange isChild)) stage := by
  rcases represents.exchanges holds closed isChild with ⟨after, relinked, exchanged, runs⟩
  refine Settles.congr ?_ runs
  have recorded := exchanged.recordChild (some parent) (some item)
  apply Settles.bind (recorded.cjsonDelete known (holds.isRoot_exchange isChild))
  rintro final ⟨removed, fields⟩
  rw [recordChild_fieldsOf, relinked.fieldsOf] at fields
  exact Settles.ok ⟨rfl, fields, removed⟩

end Replacing

end Heap
end CJson
