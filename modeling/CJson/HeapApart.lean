import CJson.HeapShelves

/-!
# Trees do not interfere

A call changes the trees of the nodes that it is given, and no other.  So a tree that
none of a run of calls is given a node of is at the end what it was in the beginning;
and since every node is in the tree of some root, deleting the roots leaves no node.
-/

namespace CJson

open CString

namespace Heap

open OrderedForest

variable {library : CLibrary} {heap after : Heap} {forest forest' : OrderedForest Addr} {root : Addr}
  {operation : Operation} {outcome : Outcome}

/-- The nodes that a call is given to change.  They are its arguments, and for a call
that takes several all of them; what is only read, and nodes that the call makes, are
not among them. -/
def Operation.Touches : Operation -> Addr -> Prop
  | .delete item, node => item = some node
  | .addItemToArray array item, node | .addItemToObject array _ item _, node
  | .insertItemInArray array _ item, node | .replaceItemInArray array _ item, node
  | .replaceItemInObject array _ item _, node => array = some node ∨ item = some node
  | .detachItemFromArray array _, node | .deleteItemFromArray array _, node
  | .detachItemFromObject array _ _, node | .deleteItemFromObject array _ _, node => array = some node
  | .detachItemViaPointer parent _, node => parent = some node
  | .replaceItemViaPointer parent _ replacement, node => parent = some node ∨ replacement = some node
  | _, _ => False

/-- What a call may do to the lists, if it does anything: let the forest grow, take
away a tree, or exchange what stands in one list.  What is taken away or exchanged
belongs to a node that is touched. -/
inductive Shifts (touches : Addr -> Prop) (forest forest' : OrderedForest Addr) : Prop
  | same (same : forest' = forest) : Shifts touches forest forest'
  | grown {result : Pointer} (grown : forest.Grown forest' result) : Shifts touches forest forest'
  | trims {node : Addr} (touched : touches node) (isRoot : forest.IsRoot node)
      (trims : Trims forest forest' (forest.Below node)) : Shifts touches forest forest'
  | swaps {parent : Addr} {list : List Addr} {joined left : Pointer} {gone : Addr -> Prop}
      (touched : touches parent) (also : ∀ node, joined = some node -> touches node)
      (swaps : Swaps forest forest' parent list joined left gone) : Shifts touches forest forest'

namespace Shifts

variable {touches : Addr -> Prop}

/-- A tree without the nodes that are given to the call stays. -/
theorem keeps (shifts : Shifts touches forest forest') (isRoot : forest.IsRoot root)
    (apart : ∀ node, touches node -> ¬ forest.Below root node) :
    forest'.IsRoot root ∧ ∀ node, forest.Below root node -> forest'.children node = forest.children node := by
  cases shifts with
  | same same =>
      rw [same]
      exact ⟨isRoot, fun _ _ => rfl⟩
  | grown grown =>
      refine ⟨(Grown.isRoot_iff grown root).mpr (Or.inl isRoot), ?_⟩
      intro node below
      exact grown.children node (below.live isRoot.1)
  | @trims top touched topRoot trims =>
      have different : ∀ node, forest.Below root node -> ¬ forest.Below top node := by
        intro node below gone
        cases root_unique isRoot topRoot below gone
        exact apart root touched .refl
      refine ⟨(trims.isRoot_iff topRoot root).mpr ⟨isRoot, ?_⟩,
        fun node below => trims.lists node (different node below)⟩
      rintro rfl
      exact apart root touched .refl
  | @swaps parent list joined left gone touched also swaps =>
      refine ⟨(swaps.isRoot_iff root).mpr
        (Or.inl ⟨isRoot, fun isJoined => apart root (also root isJoined) .refl⟩), ?_⟩
      intro node below
      apply swaps.edits.others node
      · rintro rfl
        exact apart node touched below
      · -- what is gone is below a child of the other tree
        intro dead
        rcases swaps.subtrees node dead with ⟨child, isChild, under, _⟩
        rcases below.comparable under with above | above
        · rcases Relation.ReflTransGen.cases_head above with rfl | ⟨upper, isUpper, _⟩
          · exact isRoot.2 parent isChild
          · exact isRoot.2 upper isUpper
        · rcases Relation.ReflTransGen.cases_head above with rfl | ⟨upper, isUpper, path⟩
          · exact isRoot.2 parent isChild
          · cases forest.unique isChild isUpper
            exact apart parent touched path

theorem of_adds {container item : Pointer} {position : Nat -> Nat} (fits : ∀ length, position length ≤ length)
    (canHold : ∀ place node, container = some place -> item = some node -> forest.CanHold place node)
    (adds : Adds forest forest' container item
      (fun list node => list.insertIdx (position list.length) node) outcome) :
    Shifts (fun node => container = some node ∨ item = some node) forest forest' := by
  cases container with
  | none => exact .same adds.2
  | some place =>
      cases item with
      | none => exact .same adds.2
      | some node =>
          exact .swaps (Or.inl rfl) (fun _ same => Or.inr same)
            (Swaps.of_adds (canHold place node rfl rfl) (fits _) adds.2)

theorem of_takes {container : Pointer} {find : Addr -> Option Addr}
    (isChild : ∀ place node, container = some place -> find place = some node -> node ∈ forest.children place)
    (takes : Takes forest forest' container find outcome) :
    Shifts (fun node => container = some node) forest forest' := by
  cases container with
  | none => exact .same takes.2
  | some place =>
      unfold Takes at takes
      cases found : find place with
      | none =>
          simp only [found] at takes
          exact .same takes.2
      | some node =>
          simp only [found] at takes
          exact .swaps rfl (by rintro _ ⟨⟩) (Swaps.of_takes (isChild place node rfl found) takes.2)

theorem of_drops {container : Pointer} {find : Addr -> Option Addr}
    (isChild : ∀ place node, container = some place -> find place = some node -> node ∈ forest.children place)
    (drops : Drops forest forest' container find outcome) :
    Shifts (fun node => container = some node) forest forest' := by
  rcases drops with ⟨_, drops⟩
  cases container with
  | none => exact .same drops
  | some place =>
      cases found : find place with
      | none =>
          simp only [found] at drops
          exact .same drops
      | some node =>
          simp only [found] at drops
          exact .swaps rfl (by rintro _ ⟨⟩) (Swaps.of_drops (isChild place node rfl found) drops)

theorem of_replaces {container item : Pointer} {find : Addr -> Option Addr}
    (canHold : ∀ place node, container = some place -> item = some node -> forest.CanHold place node)
    (isChild : ∀ place node, container = some place -> find place = some node -> node ∈ forest.children place)
    (replaces : Replaces forest forest' container find item outcome) :
    Shifts (fun node => container = some node ∨ item = some node) forest forest' := by
  cases container with
  | none => exact .same replaces.2
  | some place =>
      cases item with
      | none => exact .same replaces.2
      | some new =>
          unfold Replaces at replaces
          cases found : find place with
          | none =>
              simp only [found] at replaces
              exact .same replaces.2
          | some node =>
              simp only [found] at replaces
              exact .swaps (Or.inl rfl) (fun _ same => Or.inr same)
                (Swaps.of_replaces (canHold place new rfl rfl) (isChild place node rfl found) replaces.2)

end Shifts

/-- What calls do to the lists, in the end, is one of four things. -/
theorem Represents.shifts (draws : heap.Draws forest) (promised : operation.Promised heap)
    (proper : operation.Proper heap) (effect : operation.Effect heap forest forest' outcome) :
    Shifts operation.Touches forest forest' := by
  cases operation with
  | addItemToArray array item =>
      simp only [Operation.Effect, appends_eq] at effect
      exact Shifts.of_adds (fun _ => le_rfl) (draws.mayHold promised.1 promised.2.2) effect
  | addItemToObject object string item constantKey =>
      cases string with
      | none => exact .same effect.2
      | some string =>
          simp only [Operation.Effect, appends_eq] at effect
          split at effect
          · exact Shifts.of_adds (fun _ => le_rfl) (draws.mayHold promised.1 promised.2.2.1) effect
          · exact .same effect.2
  | insertItemInArray array which newitem =>
      simp only [Operation.Effect] at effect
      split at effect
      · exact .same effect.2
      · exact Shifts.of_adds (fun _ => Nat.min_le_right _ _) (draws.mayHold promised.1 promised.2.2) effect
  | detachItemViaPointer parent item =>
      exact Shifts.of_takes (fun upper node isParent isItem =>
        (draws.isChild_iff node upper).mp (proper upper node isParent isItem)) effect
  | detachItemFromArray array which => exact Shifts.of_takes atIndex_mem effect
  | detachItemFromObject object string caseSensitive => exact Shifts.of_takes underName_mem effect
  | delete item =>
      cases item with
      | none => exact .same effect.2
      | some node => exact .trims rfl ((draws.detached_iff node).mp (proper node rfl)) effect.2
  | deleteItemFromArray array which => exact Shifts.of_drops atIndex_mem effect
  | deleteItemFromObject object string caseSensitive => exact Shifts.of_drops underName_mem effect
  | replaceItemViaPointer parent item replacement =>
      exact Shifts.of_replaces (draws.mayHold promised.1 promised.2.2.2) (fun upper node isParent isItem =>
        (draws.isChild_iff node upper).mp (proper upper node isParent isItem)) effect
  | replaceItemInArray array which newitem =>
      exact Shifts.of_replaces (draws.mayHold promised.1 promised.2.2) atIndex_mem effect
  | replaceItemInObject object string replacement caseSensitive =>
      cases string with
      | none => exact .same effect.2
      | some string =>
          simp only [Operation.Effect] at effect
          split at effect
          · exact Shifts.of_replaces (draws.mayHold promised.1 promised.2.2.1) underName_mem effect
          · exact .same effect.2
  | duplicate item recurse =>
      cases item with
      | none => exact .same effect.2
      | some node =>
          rcases effect with ⟨result, _, grown⟩
          exact .grown grown
  | _ =>
      rcases effect with ⟨result, _, grown⟩
      exact .grown grown

/-- Only what a call is given to change gets other fields. -/
theorem fieldsAfter_of_not_touches {node : Addr} (untouched : ¬ operation.Touches node) :
    operation.fieldsAfter heap node = heap.fieldsOf node := by
  cases operation with
  | addItemToObject object string item constantKey =>
      cases object with
      | none => rfl
      | some place =>
          cases string with
          | none => rfl
          | some string =>
              cases item with
              | none => rfl
              | some item =>
                  have different : node ≠ item := fun same => untouched (Or.inr (same ▸ rfl))
                  simp only [Operation.fieldsAfter]
                  split
                  · rfl
                  · cases if constantKey = true then some string.bytes else (heap.strdup string.bytes).1 with
                    | none => rfl
                    | some newKey => exact Function.update_of_ne different _ _
  | replaceItemInObject object string replacement caseSensitive =>
      cases string with
      | none => rfl
      | some string =>
          cases replacement with
          | none => rfl
          | some new =>
              have different : node ≠ new := fun same => untouched (Or.inr (same ▸ rfl))
              simp only [Operation.fieldsAfter]
              cases (heap.strdup string.bytes).1 <;> exact Function.update_of_ne different _ _
  | _ => rfl

/-- A call leaves the trees alone that it is given no node of: their roots stay roots,
and their nodes keep their lists and their fields. -/
theorem Represents.leaves_apart (consumes : library.ConsumesAtMost) (draws : heap.Draws forest)
    (promised : operation.Promised heap) (proper : operation.Proper heap) (isRoot : forest.IsRoot root)
    (apart : ∀ node, operation.Touches node -> ¬ forest.Below root node) :
    Settles (fun fuel => operation.run library fuel heap) fun result => ∃ forest', result.2.Draws forest' ∧
      forest'.IsRoot root ∧ ∀ node, forest.Below root node ->
        forest'.children node = forest.children node ∧ result.2.fieldsOf node = heap.fieldsOf node := by
  apply ((draws.behaves consumes operation promised proper).and
    (draws.keepsFields consumes operation promised proper)).mono
  rintro result ⟨⟨forest', represents, effect⟩, fields⟩
  rcases (draws.shifts promised proper effect).keeps isRoot apart with ⟨stays, lists⟩
  refine ⟨forest', represents, stays, fun node below => ⟨lists node below, ?_⟩⟩
  rw [fields node (below.live isRoot.1)]
  exact fieldsAfter_of_not_touches fun touched => apart node touched below

/-! ## Runs -/

/-- Calls one after the other, each of which ends.  Which calls are allowed may depend
on the heap that the one before has left. -/
inductive Calls (library : CLibrary) (allowed : Heap -> Operation -> Prop) : Heap -> Heap -> Prop where
  | done {heap : Heap} : Calls library allowed heap heap
  | call {heap middle after : Heap} {operation : Operation} {outcome : Outcome} (may : allowed heap operation)
      (ends : operation.Ends library heap outcome middle) (rest : Calls library allowed middle after) :
      Calls library allowed heap after

/-- A lawful call that is given no node of the tree of `root` to change.  It may read
this tree, copy it, or borrow from it. -/
def Elsewhere (root : Addr) (heap : Heap) (operation : Operation) : Prop :=
  Lawful heap operation ∧
    ∀ node, operation.Touches node -> ¬ Relation.ReflTransGen heap.IsChild node root

theorem Represents.below_iff (draws : heap.Draws forest) (node : Addr) :
    Relation.ReflTransGen heap.IsChild node root ↔ forest.Below root node := by
  have same : heap.IsChild = fun child parent => child ∈ forest.children parent := by
    funext child parent
    exact propext (draws.isChild_iff child parent)
  rw [same]
  rfl

/-- What ends in one state does not end in another. -/
theorem Settles.at_end {run : Nat -> Except MemoryFault (Outcome × Heap)} {post : Outcome × Heap -> Prop}
    (settles : Settles run post) (ends : ∃ enough, ∀ fuel, enough ≤ fuel -> run fuel = .ok (outcome, after)) :
    post (outcome, after) := by
  rcases settles with ⟨enough, result, finishes, holds⟩
  rcases ends with ⟨more, ends⟩
  have same := (ends (max more enough) (Nat.le_max_left _ _)).symm.trans
    (finishes (max more enough) (Nat.le_max_right _ _))
  cases same
  exact holds

/-- A tree that no call of a run is given a node of. -/
theorem Calls.leave_apart (consumes : library.ConsumesAtMost) (calls : Calls library (Elsewhere root) heap after)
    (draws : heap.Draws forest) (isRoot : forest.IsRoot root) : ∃ forest', after.Draws forest' ∧
      forest'.IsRoot root ∧ (∀ node, forest'.Below root node ↔ forest.Below root node) ∧
        ∀ node, forest.Below root node ->
          forest'.children node = forest.children node ∧ after.fieldsOf node = heap.fieldsOf node := by
  induction calls generalizing forest with
  | done => exact ⟨forest, draws, isRoot, fun _ => Iff.rfl, fun _ _ => ⟨rfl, rfl⟩⟩
  | call may ends _ hypothesis =>
      have apart := may.2
      simp only [draws.below_iff] at apart
      rcases Settles.at_end (draws.leaves_apart consumes may.1.1 may.1.2 isRoot apart) ends with
        ⟨middle, represents, stays, kept⟩
      rcases hypothesis represents stays with ⟨forest', last, isRoot', same, keeps⟩
      have below : ∀ node, middle.Below root node ↔ forest.Below root node :=
        fun node => below_congr fun lower under => (kept lower under).1
      refine ⟨forest', last, isRoot', fun node => (same node).trans (below node), ?_⟩
      intro node under
      have again := keeps node ((below node).mpr under)
      exact ⟨again.1.trans (kept node under).1, again.2.trans (kept node under).2⟩

theorem Calls.reachable {allowed : Heap -> Operation -> Prop} (calls : Calls library allowed heap after)
    (lawful : ∀ heap operation, allowed heap operation -> Lawful heap operation)
    (reachable : Reachable library Lawful heap) : Reachable library Lawful after := by
  induction calls with
  | done => exact reachable
  | call may ends _ hypothesis => exact hypothesis (.step reachable (lawful _ _ may) ends)

/-- However the other trees are built, taken apart, changed and deleted, a tree that no
call is given a node of stays: the same nodes, linked the same way, with the same
fields. -/
theorem calls_leave_other_trees (library : CLibrary) (consumes : library.ConsumesAtMost) (heap after : Heap)
    (root : Addr) (reachable : Reachable library Lawful heap) (detached : heap.Detached root)
    (calls : Calls library (Elsewhere root) heap after) :
    after.Detached root ∧
      (∀ node, Relation.ReflTransGen after.IsChild node root ↔ Relation.ReflTransGen heap.IsChild node root) ∧
      ∃ forest forest', heap.Draws forest ∧ after.Draws forest' ∧
        ∀ item, Shows after.fieldsOf forest' root item ↔ Shows heap.fieldsOf forest root item := by
  rcases reachable.draws consumes with ⟨forest, draws⟩
  have isRoot := (draws.detached_iff root).mp detached
  rcases calls.leave_apart consumes draws isRoot with ⟨forest', last, isRoot', below, kept⟩
  refine ⟨(last.detached_iff root).mpr isRoot', ?_, forest, forest', draws, last, ?_⟩
  · intro node
    rw [last.below_iff, draws.below_iff, below]
  · intro item
    constructor
    · intro shows
      refine shows.congr fun node under => ?_
      have same := kept node ((below node).mp under)
      exact ⟨same.1.symm, same.2.symm⟩
    · intro shows
      exact shows.congr kept

/-- The first array while the second one gets a child. -/
theorem calls_leave_other_trees_fourNodes : ∃ after, Calls decimalLibrary (Elsewhere 0) fourNodes after ∧
    after.Detached 0 ∧
    (∀ node, Relation.ReflTransGen after.IsChild node 0 ↔ Relation.ReflTransGen fourNodes.IsChild node 0) ∧
    ∃ forest forest', fourNodes.Draws forest ∧ after.Draws forest' ∧
      ∀ item, Shows after.fieldsOf forest' 0 item ↔ Shows fourNodes.fieldsOf forest 0 item := by
  have reachable : Reachable decimalLibrary Lawful fourNodes :=
    fourNodes_reachable (fun _ => ⟨⟨trivial, trivial⟩, trivial, trivial⟩)
  have detached : ∀ node < 4, fourNodes.Detached node := by
    intro node small
    refine ⟨?_, not_isChild_fourNodes node⟩
    interval_cases node <;> rfl
  have apart : ∀ node upper, node ≠ upper -> ¬ Relation.ReflTransGen fourNodes.IsChild node upper := by
    intro node upper different path
    rcases Relation.ReflTransGen.cases_head path with same | ⟨_, isChild, _⟩
    · exact different same
    · exact not_isChild_fourNodes _ _ isChild
  have may : Elsewhere 0 fourNodes (.addItemToArray (some 1) (some 3)) := by
    refine ⟨⟨⟨?_, ?_, ?_⟩, ?_⟩, ?_⟩
    · rintro _ ⟨⟩
      exact (detached 1 (by decide)).1
    · rintro _ ⟨⟩
      exact (detached 3 (by decide)).1
    · rintro _ _ ⟨⟩ ⟨⟩
      exact ⟨detached 3 (by decide), apart 1 3 (by decide)⟩
    · rintro _ ⟨⟩
      rfl
    · rintro _ (⟨⟨⟩⟩ | ⟨⟨⟩⟩)
      · exact apart 1 0 (by decide)
      · exact apart 3 0 (by decide)
  have calls : Calls decimalLibrary (Elsewhere 0) fourNodes (fourNodes.withOnlyChild 1 3) :=
    @Calls.call _ _ _ _ _ _ (.flag true) may ⟨0, fun _ _ => rfl⟩ .done
  exact ⟨_, calls, calls_leave_other_trees decimalLibrary decimalLibrary_consumesAtMost fourNodes _ 0 reachable
    (detached 0 (by decide)) calls⟩

/-! ## Nothing is lost -/

/-- Delete one tree after the other. -/
def deleteEach (fuel : Nat) : Heap -> List Addr -> Except MemoryFault Heap
  | heap, [] => .ok heap
  | heap, root :: roots => do
      let heap ← Heap.cjsonDelete fuel heap (some root)
      deleteEach fuel heap roots

theorem deleteEach_settles (roots : List Addr) : ∀ {heap : Heap} {forest : OrderedForest Addr},
    heap.Draws forest -> roots.Nodup -> (∀ node, node ∈ roots ↔ forest.IsRoot node) ->
      Settles (fun fuel => deleteEach fuel heap roots) fun after => ∀ node, after.allocated node = false := by
  induction roots with
  | nil =>
      intro heap forest draws _ all
      apply Settles.ok
      intro node
      rw [← Bool.not_eq_true]
      intro isLive
      -- a node would have a root above it
      rcases exists_root draws.finite ((draws.live node).mp isLive) with ⟨root, isRoot, _⟩
      exact absurd ((all root).mpr isRoot) List.not_mem_nil
  | cons root roots hypothesis =>
      intro heap forest draws distinct all
      have isRoot := (all root).mp List.mem_cons_self
      simp only [deleteEach]
      apply Settles.bind (draws.cjsonDelete (fun _ => by simp) isRoot)
      rintro after ⟨represents, _⟩
      have trims : Trims forest (forest.remove root isRoot) (forest.Below root) :=
        ⟨fun _ => Iff.rfl, fun _ alive => children_remove alive⟩
      apply hypothesis represents (List.nodup_cons.mp distinct).2
      intro node
      rw [trims.isRoot_iff isRoot, ← all, List.mem_cons]
      constructor
      · intro inside
        exact ⟨Or.inr inside, fun same => (List.nodup_cons.mp distinct).1 (same ▸ inside)⟩
      · rintro ⟨same | inside, different⟩
        · exact absurd same different
        · exact inside

/-- Whatever calls have been made, the nodes that are in no list can be counted, and
deleting them, in any order, leaves no node. -/
theorem deleting_roots_leaves_nothing (library : CLibrary) (consumes : library.ConsumesAtMost) (heap : Heap)
    (reachable : Reachable library Lawful heap) :
    (∃ roots : List Addr, roots.Nodup ∧ ∀ node, node ∈ roots ↔ heap.Detached node) ∧
      ∀ roots : List Addr, roots.Nodup -> (∀ node, node ∈ roots ↔ heap.Detached node) ->
        Settles (fun fuel => deleteEach fuel heap roots) fun after => ∀ node, after.allocated node = false := by
  rcases reachable.draws consumes with ⟨forest, draws⟩
  simp only [draws.detached_iff]
  constructor
  · have finite : {node | forest.IsRoot node}.Finite := draws.finite.subset fun node isRoot => isRoot.1
    refine ⟨finite.toFinset.toList, Finset.nodup_toList _, fun node => ?_⟩
    exact Finset.mem_toList.trans finite.mem_toFinset
  · intro roots distinct all
    exact deleteEach_settles roots draws distinct all

theorem deleting_roots_leaves_nothing_fourNodes :
    (∃ roots : List Addr, roots.Nodup ∧ ∀ node, node ∈ roots ↔ fourNodes.Detached node) ∧
      ∀ roots : List Addr, roots.Nodup -> (∀ node, node ∈ roots ↔ fourNodes.Detached node) ->
        Settles (fun fuel => deleteEach fuel fourNodes roots) fun after => ∀ node, after.allocated node = false :=
  deleting_roots_leaves_nothing decimalLibrary decimalLibrary_consumesAtMost fourNodes
    (fourNodes_reachable (fun _ => ⟨⟨trivial, trivial⟩, trivial, trivial⟩))

end Heap
end CJson
