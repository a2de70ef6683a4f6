import CJson.HeapDelete

/-!
# Creating nodes and trees

A constructor either leaves the forest as it is, because a request for memory
was refused and what had been built was deleted again, or adds one tree of new
nodes.  The constructors of arrays and `duplicate_rec` grow the tree from its
root, child by child, and restore the first child's `prev` at the end.
-/

namespace CJson
namespace Heap

open OrderedForest

variable {heap after : Heap} {forest larger : OrderedForest Addr} {stage : Addr -> Stage}

/-- What a constructor has done.  The forest has grown by the tree of the result, or
not at all if there is none; the heap represents it, and no node that was there before
has other fields. -/
structure Made (heap after : Heap) (forest larger : OrderedForest Addr) (result : Pointer)
    (stage : Addr -> Stage) : Prop where
  grown : forest.Grown larger result
  represents : after.Represents larger stage
  fields : ∀ node ∈ forest.live, after.fieldsOf node = heap.fieldsOf node

/-- The hooks are not part of what the forest shows. -/
theorem Represents.withHooks (represents : heap.Represents forest stage) (hooks : Hooks) :
    { heap with hooks := hooks }.Represents forest stage :=
  ⟨represents.live, represents.bounded, represents.heads, represents.run, represents.openRun,
    represents.roots, represents.leaves⟩

theorem Represents.withFields (represents : heap.Represents forest stage) {node : Addr} {fields : Fields}
    (leaf : fields.type_.isReference = true -> forest.children node = []) :
    (heap.withFields node fields).Represents forest stage where
  live := represents.live
  bounded := represents.bounded
  heads := represents.heads
  run := represents.run
  openRun := represents.openRun
  roots := represents.roots
  leaves other isLive reference := by
    rw [withFields_fieldsOf] at reference
    by_cases same : other = node
    · rw [if_pos same] at reference
      rw [same]
      exact leaf reference
    · rw [if_neg same] at reference
      exact represents.leaves other isLive reference

theorem Represents.unused_not_live (represents : heap.Represents forest stage) :
    heap.unused ∉ forest.live :=
  fun isLive => Nat.lt_irrefl _ (represents.bounded heap.unused isLive)

/-- A zeroed node is a tree. -/
theorem Represents.allocate (represents : heap.Represents forest stage) :
    Made heap heap.allocate forest (forest.create heap.unused) (some heap.unused) stage := by
  have fresh := represents.unused_not_live
  have old : ∀ node ∈ forest.live, node ≠ heap.unused := by
    rintro node isLive rfl
    exact fresh isLive
  have run : ∀ {before : Pointer} {parent : Addr},
      heap.links.Run before (forest.children parent) none ->
        heap.allocate.links.Run before (forest.children parent) none := by
    intro before parent run
    apply run.congr
    intro node isChild
    have different := old node (forest.closed isChild).1
    simp [Heap.allocate, different]
  refine ⟨Grown.create fresh, ?_, ?_⟩
  · constructor
    · intro node
      by_cases same : node = heap.unused
      · simp [Heap.allocate, same]
      · simp [Heap.allocate, same, represents.live]
    · rintro node (rfl | isLive)
      · exact Nat.lt_succ_self _
      · exact Nat.lt_succ_of_lt (represents.bounded node isLive)
    · rintro node (rfl | isLive) known
      · simp [Heap.allocate, children_of_not_live fresh]
      · have heads := represents.heads node isLive known
        simpa [Heap.allocate, old node isLive] using heads
    · rintro node (rfl | isLive) closed
      · simp [children_of_not_live fresh]
      · exact run (represents.run node isLive closed)
    · rintro node (rfl | isLive) opened
      · simp [children_of_not_live fresh]
      · exact run (represents.openRun node isLive opened)
    · rintro node ⟨rfl | isLive, noParent⟩
      · simp [Heap.allocate]
      · have ends := represents.roots node ⟨isLive, noParent⟩
        simpa [Heap.allocate, old node isLive] using ends
    · rintro node (rfl | isLive) reference
      · rw [children_create, children_of_not_live fresh]
      · apply represents.leaves node isLive
        simpa [Heap.allocate, old node isLive] using reference
  · intro node isLive
    simp [Heap.allocate, old node isLive]

namespace Made

variable {top : Addr} (made : Made heap after forest larger (some top) stage)

include made

theorem live : after.allocated top = true :=
  made.represents.allocated (made.grown.root top rfl).1

theorem withFields {fields : Fields} (leaf : fields.type_.isReference = true -> larger.children top = []) :
    Made heap (after.withFields top fields) forest larger (some top) stage where
  grown := made.grown
  represents := made.represents.withFields leaf
  fields node isLive := by
    have different : node ≠ top := by
      rintro rfl
      exact made.grown.new node node rfl .refl isLive
    rw [withFields_fieldsOf, if_neg different]
    exact made.fields node isLive

/-- Fields of the new root are assigned. -/
theorem setFields (change : Fields -> Fields)
    (leaf : (change (after.fieldsOf top)).type_.isReference = true -> larger.children top = []) :
    Returns (after.setFields (some top) change) fun final =>
      Made heap final forest larger (some top) stage ∧
        final.fieldsOf top = change (after.fieldsOf top) := by
  refine Returns.of_eq (setFields_eq made.live change) ⟨made.withFields leaf, ?_⟩
  rw [withFields_fieldsOf, if_pos rfl]

theorem withHooks (hooks : Hooks) :
    Made heap { after with hooks := hooks } forest larger (some top) stage where
  grown := made.grown
  represents := made.represents.withHooks hooks
  fields := made.fields

/-- What has been built is deleted again. -/
theorem cjsonDelete (known : ∀ node, stage node ≠ .loose) :
    Settles (fun fuel => Heap.cjsonDelete fuel after (some top)) fun final =>
      Made heap final forest forest none stage := by
  apply (made.represents.cjsonDelete known (made.grown.root top rfl)).mono
  rintro final ⟨represents, fields⟩
  rw [made.grown.remove] at represents
  refine ⟨Grown.refl forest, represents, ?_⟩
  intro node isLive
  rw [fields]
  exact made.fields node isLive

end Made

/-- `new_item`. -/
theorem Represents.newItem (represents : heap.Represents forest stage) :
    ∃ larger, Made heap heap.newItem.2 forest larger heap.newItem.1 stage ∧
      ∀ top, heap.newItem.1 = some top -> larger.children top = [] := by
  have requested := represents.withHooks (heap.request nodeSize).2.hooks
  rw [Heap.newItem]
  split
  · have made := requested.allocate
    refine ⟨_, ⟨made.grown, made.represents, made.fields⟩, ?_⟩
    rintro top same
    cases same
    rw [children_create, children_of_not_live represents.unused_not_live]
  · exact ⟨forest, ⟨Grown.refl forest, requested, fun _ _ => rfl⟩, fun _ impossible => nomatch impossible⟩

/-- `cjson_create_*`. -/
theorem Represents.createNode (represents : heap.Represents forest stage) (fields : Fields) :
    Returns (heap.createNode fields) fun result => ∃ larger, Made heap result.2 forest larger result.1 stage ∧
      ∀ top, result.1 = some top -> larger.children top = [] ∧ result.2.fieldsOf top = fields := by
  rcases represents.newItem with ⟨larger, made, leaf⟩
  rw [Heap.createNode]
  rcases requested : heap.newItem with ⟨result, after⟩
  rw [requested] at made leaf
  cases result with
  | none => exact Returns.ok ⟨larger, made, fun _ impossible => nomatch impossible⟩
  | some top =>
      apply (made.setFields (fun _ => fields) (fun _ => leaf top rfl)).bind
      rintro final _ ⟨made, assigned⟩
      apply Returns.ok
      refine ⟨larger, made, ?_⟩
      rintro other same
      cases same
      exact ⟨leaf top rfl, assigned⟩

/-- Copying a string touches the hooks only. -/
theorem strdup_cases (heap : Heap) (string : Bytes) : ∃ hooks copy,
    heap.strdup string = (none, { heap with hooks := hooks }) ∨
      heap.strdup string = (some copy, { heap with hooks := hooks }) := by
  refine ⟨(heap.request ((CString.text string).length + 1)).2.hooks, CString.text string ++ [0], ?_⟩
  rw [strdup]
  by_cases granted : (heap.request ((CString.text string).length + 1)).1 = true
  · rw [if_pos granted]
    exact Or.inr rfl
  · rw [if_neg granted]
    exact Or.inl rfl

/-- What a constructor that may delete its work again does.  Deleting takes a budget,
and so what is said is that every large enough budget gives the same result. -/
def Makes (heap : Heap) (forest : OrderedForest Addr) (stage : Addr -> Stage)
    (run : Nat -> Except MemoryFault (Pointer × Heap)) : Prop :=
  Settles run fun result => ∃ larger, Made heap result.2 forest larger result.1 stage

/-- `cjson_create_string` and `cjson_create_raw`. -/
theorem Represents.createText (represents : heap.Represents forest stage)
    (known : ∀ node, stage node ≠ .loose) (base : BaseType) (string : Option Bytes) :
    heap.Makes forest stage (fun fuel => Heap.createText fuel heap base string) := by
  unfold Heap.createText
  apply Settles.bind (Settles.of_returns (represents.createNode _))
  rintro ⟨item, created⟩ ⟨larger, made, leaf⟩
  cases item with
  | none => exact Settles.ok ⟨larger, made⟩
  | some top =>
      have fails : ∀ hooks, Settles (fun fuel => (do
          let final ← Heap.cjsonDelete fuel { created with hooks := hooks } (some top)
          .ok (none, final) : Except MemoryFault (Pointer × Heap))) fun result =>
            ∃ larger, Made heap result.2 forest larger result.1 stage := by
        intro hooks
        apply Settles.bind ((made.withHooks hooks).cjsonDelete known)
        intro final unmade
        exact Settles.ok ⟨forest, unmade⟩
      cases string with
      | none => exact fails created.hooks
      | some string =>
          rcases strdup_cases created string with ⟨hooks, copy, refused | copied⟩
          · simp only [Option.isNone_some, refused]
            exact fails hooks
          · have owned := made.withHooks hooks
            simp only [Option.isNone_some, copied]
            apply Settles.bind (Settles.of_returns (owned.setFields _ (fun _ => (leaf top rfl).1)))
            rintro final ⟨made, _⟩
            exact Settles.ok ⟨larger, made⟩

/-! ## Growing a tree -/

section Growing

variable {parent child : Addr}

/-- A new child behind the others of a parent whose list is not finished: what
remains to be shown about the links. -/
theorem Represents.attachOpen (represents : heap.Represents forest stage)
    (holds : forest.CanHold parent child) (opened : stage parent ≠ .closed) (relinked : heap.Relinked after)
    (childOf : ∀ node, node ≠ parent -> after.childOf node = heap.childOf node)
    (head : stage parent ≠ .loose ->
      after.childOf parent = (forest.children parent).head?.or (some child))
    (links : ∀ node, node ≠ child -> node ∉ forest.children parent ->
      after.links.next node = heap.links.next node ∧ after.links.prev node = heap.links.prev node)
    (run : after.links.Run none (forest.children parent ++ [child]) none)
    (leaf : (heap.fieldsOf parent).type_.isReference = false) :
    after.Represents (holds.attach (forest.children parent).length) stage := by
  have appended : (holds.attach (forest.children parent).length).children parent =
      forest.children parent ++ [child] := by
    rw [CanHold.attach, children_attach_self, List.insertIdx_length_self]
  refine @Represents.change _ _ _ _ represents (holds.attach (forest.children parent).length) stage parent
    relinked rfl ?_ ?_ ?_ ?_ ?_ ?_ leaf
  · intro node different
    exact ⟨children_attach_of_ne different, rfl, childOf node different⟩
  · intro other node different inside
    apply links node
    · rintro rfl
      exact holds.root.2 other inside
    · intro inParent
      exact different (forest.unique inside inParent)
  · intro known
    rw [appended, head known, List.head?_append]
    rfl
  · intro closed
    exact absurd closed opened
  · intro _
    rw [appended]
    exact run
  · intro node root
    rcases holds.isRoot le_rfl root with ⟨oldRoot, different⟩
    rcases links node different (oldRoot.2 parent) with ⟨next, prev⟩
    rw [next, prev]
    exact represents.roots node oldRoot

/-- `suffix_object` behind the last child.  Until the list is finished the head does
not know its new last node, so the list is open while the loop runs. -/
theorem Represents.suffixObject (represents : heap.Represents forest stage)
    (holds : forest.CanHold parent child) (opened : stage parent ≠ .closed)
    (leaf : (heap.fieldsOf parent).type_.isReference = false) {last : Addr}
    (isLast : (forest.children parent).getLast? = some last) :
    Returns (heap.suffixObject (some last) (some child)) fun after => heap.Relinked after ∧
      after.Represents (holds.attach (forest.children parent).length) stage := by
  have inside := List.mem_of_getLast? isLast
  have lastLive := represents.allocated (forest.closed inside).1
  have childLive := represents.allocated holds.root.1
  have runs : heap.suffixObject (some last) (some child) =
      .ok (heap.withLinks ((heap.links.setNext last (some child)).setPrev child (some last))) := by
    simp [Heap.suffixObject, lastLive, childLive]
  refine Returns.of_eq runs ⟨⟨rfl, rfl, rfl, rfl, rfl⟩, ?_⟩
  apply represents.attachOpen holds opened _ _ _ _ _ leaf
  · exact ⟨rfl, rfl, rfl, rfl, rfl⟩
  · intro node _
    rfl
  · intro known
    rcases Option.isSome_iff_exists.mp (List.isSome_head?.mpr (List.ne_nil_of_mem inside)) with
      ⟨first, isFirst⟩
    have heads := represents.heads parent holds.isLive known
    rw [isFirst] at heads ⊢
    exact heads
  · intro node different notIn
    have notLast : node ≠ last := fun same => notIn (same ▸ inside)
    simp [different, notLast]
  · exact (represents.openRun parent holds.isLive opened).append isLast (forest.distinct parent)
      (holds.root.2 parent) (represents.roots child holds.root).1

/-- The first child, or one behind the last child.  The loops of the constructors do
the one in the first round and the other in every later one. -/
theorem Represents.attachChild (represents : heap.Represents forest stage)
    (holds : forest.CanHold parent child) (chained : stage parent = .chained)
    (leaf : (heap.fieldsOf parent).type_.isReference = false) :
    Returns (heap.attachChild (some parent) (forest.children parent).getLast? (some child)) fun after =>
      heap.Relinked after ∧
        after.Represents (holds.attach (forest.children parent).length) stage := by
  have opened : stage parent ≠ .closed := by simp [chained]
  rw [Heap.attachChild]
  cases isLast : (forest.children parent).getLast? with
  | some last => exact represents.suffixObject holds opened leaf isLast
  | none =>
      have empty : forest.children parent = [] := List.getLast?_eq_none_iff.mp isLast
      have ends := represents.roots child holds.root
      have runs : heap.setChild (some parent) (some child) = .ok (heap.withChild parent (some child)) :=
        setChild_eq (represents.allocated holds.isLive) _
      refine Returns.of_eq runs ⟨⟨rfl, rfl, rfl, rfl, rfl⟩, ?_⟩
      apply represents.attachOpen holds opened _ _ _ _ _ leaf
      · exact ⟨rfl, rfl, rfl, rfl, rfl⟩
      · intro node different
        simp [different]
      · intro _
        simp [empty]
      · intro node _ _
        exact ⟨rfl, rfl⟩
      · rw [empty]
        exact ⟨ends.2, ends.1, trivial⟩

/-- Nodes that are not there have no stage. -/
theorem Represents.congr_stage (represents : heap.Represents forest stage) {stage' : Addr -> Stage}
    (same : ∀ node ∈ forest.live, stage' node = stage node) : heap.Represents forest stage' where
  live := represents.live
  bounded := represents.bounded
  heads node isLive known := represents.heads node isLive (same node isLive ▸ known)
  run node isLive closed := represents.run node isLive (same node isLive ▸ closed)
  openRun node isLive opened := represents.openRun node isLive (same node isLive ▸ opened)
  roots := represents.roots
  leaves := represents.leaves

/-- A list that is still empty can be opened. -/
theorem Represents.restage (represents : heap.Represents forest stage) {next : Stage}
    (empty : forest.children parent = []) (head : next ≠ .loose -> heap.childOf parent = none) :
    heap.Represents forest (Function.update stage parent next) where
  live := represents.live
  bounded := represents.bounded
  heads node isLive known := by
    by_cases same : node = parent
    · rw [same, Function.update_self] at known
      rw [same, empty, head known, List.head?_nil]
    · rw [Function.update_of_ne same] at known
      exact represents.heads node isLive known
  run node isLive closed := by
    by_cases same : node = parent
    · rw [same, empty]
      exact Links.run_nil
    · rw [Function.update_of_ne same] at closed
      exact represents.run node isLive closed
  openRun node isLive opened := by
    by_cases same : node = parent
    · rw [same, empty]
      exact Links.run_nil
    · rw [Function.update_of_ne same] at opened
      exact represents.openRun node isLive opened
  roots := represents.roots
  leaves := represents.leaves

theorem Represents.chain (represents : heap.Represents forest stage) (isLive : parent ∈ forest.live)
    (closed : stage parent = .closed) (empty : forest.children parent = []) :
    heap.Represents forest (Function.update stage parent .chained) := by
  apply represents.restage empty
  intro _
  rw [represents.heads parent isLive (by simp [closed]), empty, List.head?_nil]

theorem Represents.loosen (represents : heap.Represents forest stage) (empty : forest.children parent = []) :
    heap.Represents forest (Function.update stage parent .loose) :=
  represents.restage empty (fun known => absurd rfl known)

/-- The list of a node is finished: its head gets the last node as its `prev`, and the
list is well linked from then on. -/
theorem Represents.close (represents : heap.Represents forest stage) (relinked : heap.Relinked after)
    (childOf : ∀ node, node ≠ parent -> after.childOf node = heap.childOf node)
    (links : ∀ node, node ∉ forest.children parent ->
      after.links.next node = heap.links.next node ∧ after.links.prev node = heap.links.prev node)
    (linked : after.links.WellLinked (after.childOf parent) (forest.children parent))
    (leaf : (heap.fieldsOf parent).type_.isReference = false) :
    after.Represents forest (Function.update stage parent .closed) := by
  refine @Represents.change _ _ _ _ represents forest (Function.update stage parent .closed) parent
    relinked rfl ?_ ?_ (fun _ => linked.1) (fun _ => linked.2) ?_ ?_ leaf
  · intro node different
    exact ⟨rfl, Function.update_of_ne different _ _, childOf node different⟩
  · intro other node different inside
    exact links node (fun inParent => different (forest.unique inside inParent))
  · intro opened
    rw [Function.update_self] at opened
    exact absurd rfl opened
  · intro node root
    rcases links node (root.2 parent) with ⟨next, prev⟩
    rw [next, prev]
    exact represents.roots node root

/-- The first child's `prev` is restored, by which the list becomes well linked. -/
theorem Represents.closeChildren (represents : heap.Represents forest stage) (isLive : parent ∈ forest.live)
    (chained : stage parent = .chained) (leaf : (heap.fieldsOf parent).type_.isReference = false) :
    Returns (heap.closeChildren (some parent) (forest.children parent).getLast?) fun after =>
      heap.Relinked after ∧ after.Represents forest (Function.update stage parent .closed) := by
  have parentLive := represents.allocated isLive
  have head := represents.heads parent isLive (by simp [chained])
  have run := represents.openRun parent isLive (by simp [chained])
  have distinct := forest.distinct parent
  cases children : forest.children parent with
  | nil =>
      rw [children, List.head?_nil] at head
      have runs : heap.closeChildren (some parent) ([] : List Addr).getLast? = .ok heap := by
        simp [Heap.closeChildren, parentLive, head]
      refine Returns.of_eq runs ⟨⟨rfl, rfl, rfl, rfl, rfl⟩, ?_⟩
      apply represents.close _ _ _ _ leaf
      · exact ⟨rfl, rfl, rfl, rfl, rfl⟩
      · intro node _
        rfl
      · intro node _
        exact ⟨rfl, rfl⟩
      · rw [children, head]
        exact Links.wellLinked_nil
  | cons first rest =>
      rw [children] at head run distinct
      have firstIn : first ∈ forest.children parent := by simp [children]
      have firstLive := represents.allocated (forest.closed firstIn).1
      rw [List.head?_cons] at head
      have runs : heap.closeChildren (some parent) (first :: rest).getLast? =
          .ok (heap.withLinks (heap.links.setPrev first (first :: rest).getLast?)) := by
        simp [Heap.closeChildren, parentLive, head, firstLive]
      refine Returns.of_eq runs ⟨⟨rfl, rfl, rfl, rfl, rfl⟩, ?_⟩
      apply represents.close _ _ _ _ leaf
      · exact ⟨rfl, rfl, rfl, rfl, rfl⟩
      · intro node _
        rfl
      · intro node notIn
        have notFirst : node ≠ first := fun same => notIn (same ▸ firstIn)
        simp [notFirst]
      · rw [children]
        exact ⟨head, run.setFirst distinct _⟩

end Growing

/-! ## Arrays -/

/-- Where constructors may run: nodes to come have no stage, and every node that
has children knows them. -/
structure Building (forest : OrderedForest Addr) (stage : Addr -> Stage) : Prop where
  known : ∀ node, stage node ≠ .loose
  new : ∀ node, node ∉ forest.live -> stage node = .closed

theorem Building.grow (building : Building forest stage) {top : Addr}
    (grown : forest.Grown larger (some top)) : Building larger (Function.update stage top .chained) where
  known node := by
    rw [Function.update_apply]
    by_cases same : node = top
    · simp [same]
    · simpa [same] using building.known node
  new node dead := by
    have different : node ≠ top := by
      rintro rfl
      exact dead (grown.root node rfl).1
    rw [Function.update_of_ne different]
    exact building.new node (fun isLive => dead (grown.mono isLive))

/-- Closing the list of a new node leaves the stages as they were. -/
theorem Building.close (building : Building forest stage) {top : Addr}
    (grown : forest.Grown larger (some top)) :
    Function.update (Function.update stage top .chained) top .closed = stage := by
  rw [Function.update_idem, Function.update_eq_self_iff]
  exact (building.new top (grown.new top top rfl .refl)).symm

namespace Made

variable {top child : Addr} {later : Heap} {last : OrderedForest Addr}

theorem restage {stage' : Addr -> Stage} (made : Made heap after forest larger (some top) stage)
    (represents : after.Represents larger stage') : Made heap after forest larger (some top) stage' :=
  ⟨made.grown, represents, made.fields⟩

theorem after_none (made : Made heap after forest larger (some top) stage)
    (nothing : Made after later larger last none stage) :
    Made heap later forest larger (some top) stage where
  grown := made.grown
  represents := nothing.grown.eq_of_none ▸ nothing.represents
  fields node isLive := (nothing.fields node (made.grown.mono isLive)).trans (made.fields node isLive)

theorem attach {parent : Addr} {final : Heap} (made : Made heap after forest larger (some top) stage)
    (inside : larger.Below top parent) (more : Made after later larger last (some child) stage)
    (relinked : later.Relinked final)
    (represents : final.Represents ((more.grown.canHold (made.grown.below_live inside)).attach
      (last.children parent).length) stage) :
    Made heap final forest ((more.grown.canHold (made.grown.below_live inside)).attach
      (last.children parent).length) (some top) stage where
  grown := made.grown.attach inside more.grown le_rfl
  represents := represents
  fields node isLive := by
    rw [relinked.fieldsOf, more.fields node (made.grown.mono isLive), made.fields node isLive]

end Made

/-- How far a loop that grows a tree has come, with `last` its last child.  Until it
is done the first child does not know the last, which is what the stage `chained`
stands for. -/
structure Growing (heap after : Heap) (forest : OrderedForest Addr) (top : Addr) (last : Pointer)
    (stage : Addr -> Stage) (larger : OrderedForest Addr) : Prop where
  made : Made heap after forest larger (some top) (Function.update stage top .chained)
  last : last = (larger.children top).getLast?
  leaf : (after.fieldsOf top).type_.isReference = false

/-- One round: a new tree becomes the last child. -/
theorem Growing.attachChild {top child : Addr} {last : Pointer} {later : Heap} {larger wider : OrderedForest Addr}
    (growing : Growing heap after forest top last stage larger)
    (more : Made after later larger wider (some child) (Function.update stage top .chained)) :
    Returns (later.attachChild (some top) last (some child)) fun final =>
      ∃ largest, Growing heap final forest top (some child) stage largest := by
  have topLive := (growing.made.grown.root top rfl).1
  have same := more.grown.children top topLive
  have holds := more.grown.canHold topLive
  have leaf : (later.fieldsOf top).type_.isReference = false := by
    rw [more.fields top topLive]
    exact growing.leaf
  rw [growing.last, ← same]
  apply (more.represents.attachChild holds (Function.update_self _ _ _) leaf).mono
  rintro final ⟨relinked, represents⟩
  refine ⟨_, growing.made.attach .refl more relinked represents, ?_, ?_⟩
  · rw [CanHold.attach, children_attach_self, List.insertIdx_length_self, List.getLast?_concat]
  · rw [relinked.fieldsOf]
    exact leaf

/-- The loop begins with a node that has no children. -/
theorem Growing.start {top : Addr} (building : Building forest stage)
    (made : Made heap after forest larger (some top) stage) (empty : larger.children top = [])
    (leaf : (after.fieldsOf top).type_.isReference = false) :
    Growing heap after forest top none stage larger := by
  have closed : stage top = .closed := building.new top (made.grown.new top top rfl .refl)
  exact ⟨made.restage (made.represents.chain (made.grown.root top rfl).1 closed empty), by simp [empty], leaf⟩

/-- After the loop the list is closed, and the tree is finished. -/
theorem Growing.close {top : Addr} {last : Pointer} (building : Building forest stage)
    (growing : Growing heap after forest top last stage larger) :
    Returns (after.closeChildren (some top) last) fun final =>
      Made heap final forest larger (some top) stage := by
  have topLive := (growing.made.grown.root top rfl).1
  rw [growing.last]
  apply (growing.made.represents.closeChildren topLive (Function.update_self _ _ _) growing.leaf).mono
  rintro final ⟨relinked, represents⟩
  rw [building.close growing.made.grown] at represents
  refine ⟨growing.made.grown, represents, ?_⟩
  intro node isLive
  rw [relinked.fieldsOf]
  exact growing.made.fields node isLive

/-- A loop that gives up deletes what it has built.  The forest that is left is the
one that the constructor started with. -/
theorem Growing.delete {top : Addr} {last : Pointer} (building : Building forest stage)
    (growing : Growing heap after forest top last stage larger) :
    Settles (fun fuel => Heap.cjsonDelete fuel after (some top)) fun final =>
      Made heap final forest forest none stage := by
  apply (growing.made.cjsonDelete (building.grow growing.made.grown).known).mono
  intro final unmade
  refine ⟨unmade.grown, unmade.represents.congr_stage ?_, unmade.fields⟩
  intro node isLive
  have different : node ≠ top := by
    rintro rfl
    exact growing.made.grown.new node node rfl .refl isLive
  rw [Function.update_of_ne different]

/-- A constructor that has done nothing does not disturb the loop. -/
theorem Growing.after_none {top : Addr} {last : Pointer} {later : Heap} {wider : OrderedForest Addr}
    (growing : Growing heap after forest top last stage larger)
    (nothing : Made after later larger wider none (Function.update stage top .chained)) :
    Growing heap later forest top last stage larger where
  made := growing.made.after_none nothing
  last := growing.last
  leaf := by
    rw [nothing.fields top (growing.made.grown.root top rfl).1]
    exact growing.leaf

/-- A function that constructs a tree, wherever it runs.  It asks for nothing but a
heap that represents a forest, so that constructors can be used inside of others. -/
def Constructs (run : Nat -> Heap -> Except MemoryFault (Pointer × Heap)) : Prop :=
  ∀ {heap : Heap} {forest : OrderedForest Addr} {stage : Addr -> Stage},
    heap.Represents forest stage -> Building forest stage ->
      heap.Makes forest stage (fun fuel => run fuel heap)

theorem createNode_constructs (fields : Fields) : Constructs (fun _ heap => heap.createNode fields) := by
  intro heap forest stage represents _
  apply (Settles.of_returns (represents.createNode fields)).mono
  rintro result ⟨larger, made, _⟩
  exact ⟨larger, made⟩

theorem createText_constructs (base : BaseType) (string : Option Bytes) :
    Constructs (fun fuel heap => Heap.createText fuel heap base string) :=
  fun represents building => represents.createText building.known base string

/-- The loop of `create_number_array` grows the tree of the array, or deletes it.  The
array is deleted as soon as one element cannot be made; its loop invariant is that the
list is chained but not yet closed. -/
theorem createElements_settles {ι : Type} {create : ι -> Nat -> Heap -> Except MemoryFault (Pointer × Heap)}
    (constructs : ∀ element, Constructs (create element)) (building : Building forest stage)
    {top : Addr} (elements : List ι) :
    ∀ after last larger, Growing heap after forest top last stage larger ->
      Settles (fun fuel => Heap.createElements fuel (some top)
        (elements.map (fun element => create element fuel)) after last) fun result =>
          match result.1 with
          | none => Made heap result.2 forest forest none stage
          | some last => ∃ largest, Growing heap result.2 forest top last stage largest := by
  induction elements with
  | nil =>
      intro after last larger growing
      exact Settles.ok ⟨larger, growing⟩
  | cons element elements hypothesis =>
      intro after last larger growing
      have inner := building.grow growing.made.grown
      simp only [List.map_cons, Heap.createElements]
      apply Settles.bind (constructs element growing.made.represents inner)
      rintro ⟨n, later⟩ ⟨wider, more⟩
      cases n with
      | none =>
          apply Settles.bind ((growing.after_none more).delete building)
          intro final unmade
          exact Settles.ok unmade
      | some n =>
          simp only [Option.isNone_some]
          apply Settles.bind (Settles.of_returns (growing.attachChild more))
          rintro final ⟨largest, grows⟩
          exact hypothesis final (some n) largest grows

/-- `create_number_array` and its relatives: an array of what their element
constructor makes, or nothing at all. -/
theorem createNumberArray_constructs {ι : Type}
    {create : ι -> Nat -> Heap -> Except MemoryFault (Pointer × Heap)}
    (constructs : ∀ element, Constructs (create element)) (elements : List ι) :
    Constructs (fun fuel heap =>
      Heap.createNumberArray fuel heap (elements.map (fun element => create element fuel))) := by
  intro heap forest stage represents building
  unfold Heap.createNumberArray
  apply Settles.bind (Settles.of_returns (represents.createNode _))
  rintro ⟨a, created⟩ ⟨larger, made, leaf⟩
  cases a with
  | none => exact Settles.ok ⟨larger, made⟩
  | some top =>
      rcases leaf top rfl with ⟨empty, fields⟩
      have growing := Growing.start building made empty
        (congrArg (fun fields : Fields => fields.type_.isReference) fields)
      simp only [Option.isNone_some]
      apply Settles.bind (createElements_settles constructs building elements created none larger growing)
      rintro ⟨n, later⟩ outcome
      cases n with
      | none => exact Settles.ok ⟨forest, outcome⟩
      | some n =>
          rcases outcome with ⟨largest, grown⟩
          apply Settles.bind (Settles.of_returns (grown.close building))
          intro final made
          exact Settles.ok ⟨largest, made⟩

end Heap
end CJson
