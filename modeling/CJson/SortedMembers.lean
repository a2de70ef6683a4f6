import CJson.Siblings
import CJson.Runs

/-!
# Members after a sort

`sort_list` never writes the `prev` of the node that comes first, although this is
where an object keeps its last member.  So the list is well linked afterwards only if
the same nodes are first and last as before; then everything that is added, detached
and deleted later finds the list as it should be.
-/

namespace CJson
namespace Heap

open CString

variable {library : CLibrary} {heap after : Heap} {object node : Addr} {nodes : List Addr} {caseSensitive : Bool}
  {fuel : Nat}

/-! ## The ends of the sorted list -/

theorem smallerNode_comparesNamed (fieldsOf : Addr -> Fields) (caseSensitive : Bool) :
    MergeSort.ComparesNamed (smallerNode fieldsOf caseSensitive) (fun node => (fieldsOf node).string.isSome = true)
      (nameKey fieldsOf caseSensitive) := by
  intro first second
  rw [smallerNode, decide_eq_true_iff]
  by_cases named : (fieldsOf first).string.isSome = true ∧ (fieldsOf second).string.isSome = true
  · rw [(compareStrings_names named.1 named.2).1]
    exact ⟨fun smaller => ⟨named.1, named.2, smaller⟩, fun both => both.2.2⟩
  · have positive : compareStrings (fieldsOf first).string (fieldsOf second).string caseSensitive = 1 := by
      cases firstName : (fieldsOf first).string with
      | none => rfl
      | some _ =>
          cases secondName : (fieldsOf second).string with
          | none => rfl
          | some _ => exact absurd ⟨by rw [firstName]; rfl, by rw [secondName]; rfl⟩ named
    rw [positive]
    exact iff_of_false (by decide) (fun both => named ⟨both.1, both.2.1⟩)

/-- After a sort the head knows the last node exactly if the ends are what they were.
The `prev` of the new head is what it was before the sort, unless the merge has
written it. -/
theorem Sorts.wellLinked_iff {links after : Links Addr} {head : Pointer} {sorted : List Addr}
    (sorts : Sorts links after nodes sorted) (linked : links.WellLinked head nodes) (perm : sorted.Perm nodes) :
    after.WellLinked sorted.head? sorted ↔
      sorted.head? = nodes.head? ∧ sorted.getLast? = nodes.getLast? := by
  rcases sorted with _ | ⟨first, rest⟩
  · rw [← perm.nil_eq]
    exact iff_of_true ⟨rfl, trivial⟩ ⟨rfl, rfl⟩
  have prev := sorts.first first rfl
  constructor
  · intro again
    have last := again.prev_first rfl
    rw [prev] at last
    split at last
    · rename_i isFirst
      rw [linked.prev_first isFirst] at last
      exact ⟨isFirst.symm, last.symm⟩
    · exact absurd last.symm (by simp)
  · rintro ⟨isFirst, isLast⟩
    have stays : nodes.head? = some first := isFirst.symm
    rw [if_pos stays, linked.prev_first stays, ← isLast] at prev
    refine ⟨rfl, ?_⟩
    have chain := sorts.chain
    rw [Links.Chain, List.head?_cons, Option.bind_some, prev] at chain
    exact chain

/-! ## Later calls -/

/-- The calls that change the members of an object, with what their callers keep to.
What is added is not in the list and has nothing behind it, what is detached is a
member, and what is deleted has no node in common with the object and its list; for a
deletion by name this is asked of what is below the member that will be found.  None
of this asks the object's list to be well linked, since whether it is, is the
question. -/
def OnMembers (heap : Heap) (object : Addr) (nodes : List Addr) : Operation -> Prop
  | .addItemToObject container _ item _ => container = some object ∧ ∃ node, item = some node ∧
      heap.allocated node = true ∧ node ∉ object :: nodes ∧ heap.links.next node = none
  | .detachItemViaPointer parent item => parent = some object ∧ ∃ node ∈ nodes, item = some node
  | .delete item => ∃ node, item = some node ∧ ∀ other ∈ object :: nodes, ¬ heap.Reaches node other
  | .deleteItemFromObject container string caseSensitive => container = some object ∧
      ∀ name node start, string = some name -> findMember heap.fieldsOf name caseSensitive nodes = some node ->
        heap.childOf node = some start -> ∀ other ∈ object :: nodes, ¬ heap.Reaches start other
  | _ => False

/-- The members after such a call.  An addition goes to the end of the list unless the
copy of the name is refused; a deletion by name takes the first member that answers to
it. -/
def membersAfter (heap : Heap) (nodes : List Addr) : Operation -> List Addr
  | .addItemToObject _ (some string) (some node) constantKey =>
      if constantKey || heap.copyGranted string.bytes then nodes ++ [node] else nodes
  | .detachItemViaPointer _ (some node) => nodes.erase node
  | .deleteItemFromObject _ (some name) caseSensitive =>
      match findMember heap.fieldsOf name caseSensitive nodes with
      | some node => nodes.erase node
      | none => nodes
  | _ => nodes

/-- Calls one after another, with the members that an object has before and after.
The members are those that the calls should leave; whether the list still consists of
them is for `KeepsMembers` to say. -/
inductive Afterwards (library : CLibrary) (object : Addr) (heap : Heap) (nodes : List Addr) :
    Heap -> List Addr -> Prop
  | refl : Afterwards library object heap nodes heap nodes
  | step {current after : Heap} {members : List Addr} {operation : Operation} {outcome : Outcome} :
      Afterwards library object heap nodes current members -> current.OnMembers object members operation ->
      operation.Ends library current outcome after ->
      Afterwards library object heap nodes after (current.membersAfter members operation)

/-- Whatever calls follow, the object's list is well linked and consists of the
members it had, without those that were detached or deleted, with those that were
added behind them. -/
def KeepsMembers (library : CLibrary) (heap : Heap) (object : Addr) (nodes : List Addr) : Prop :=
  ∀ after members, Afterwards library object heap nodes after members ->
    after.links.WellLinked (after.childOf object) members

theorem Relists.lists {touched members : List Addr} (relists : heap.Relists after object touched members)
    (objectLive : heap.allocated object = true) (live : ∀ node ∈ members, heap.allocated node = true) :
    after.Lists object members := by
  refine ⟨?_, ?_, relists.linked⟩
  · rw [relists.relinked.allocated]
    exact objectLive
  · intro node inside
    rw [relists.relinked.allocated]
    exact live node inside

theorem release_ensures {node : Addr} :
    Ensures (heap.release (some node)) fun after => heap.Freed after (fun other => other = node) := by
  by_cases live : heap.allocated node = true
  · rcases release_freed live with ⟨after, ran, freed⟩
    rw [ran]
    exact .ok freed
  · rw [release, access, if_neg live]
    exact .error

/-- Deleting frees nodes of a set that is closed under following links, and changes
nothing else. -/
theorem cjsonDelete_freed {dead : Set Addr} {pointer : Pointer}
    (next : ∀ node ∈ dead, Into dead (heap.links.next node)) (child : ∀ node ∈ dead, Into dead (heap.childOf node))
    (inside : Into dead pointer) : Ensures (cjsonDelete fuel heap pointer) fun after =>
      ∃ gone, heap.Freed after gone ∧ ∀ node, gone node -> node ∈ dead := by
  induction fuel generalizing heap pointer with
  | zero => exact .error
  | succ fuel ih =>
      have nothing : ∃ gone, heap.Freed heap gone ∧ ∀ node, gone node -> node ∈ dead :=
        ⟨fun _ => False, .refl heap fun _ => id, fun _ impossible => impossible.elim⟩
      apply Ensures.ite
      · exact fun _ => .ok nothing
      intro some
      rcases pointer with _ | node
      · exact absurd rfl some
      have nodeInside := inside node rfl
      have read : Ensures (heap.next (.some node)) fun target =>
          target = heap.links.next node ∧ heap.allocated node = true := by
        apply access_ensures.bind
        rintro _ ⟨⟨⟩, live⟩
        exact ⟨rfl, live⟩
      apply read.bind
      rintro _ ⟨rfl, live⟩
      apply Ensures.step
      intro fields
      rw [child_eq live, Except.ok_bind]
      have descends := @ih (heap.record [.child fields.type_]) (heap.childOf node) next child (child node nodeInside)
      have deleted := descends.mono fun middle done =>
        done.imp fun gone both => And.intro (Freed.of_record both.1) both.2
      apply Ensures.iteBind (fun _ => deleted) (fun _ => .ok nothing)
      rintro middle ⟨below, freed, belowInside⟩
      apply release_ensures.bind
      intro later released
      have both := (freed.record fields.releases).trans released
      have rest := @ih later (heap.links.next node) (by rw [both.links]; exact next)
        (by rw [both.childOf]; exact child)
        (next node nodeInside)
      apply rest.mono
      rintro after ⟨others, more, othersInside⟩
      refine ⟨_, both.trans more, ?_⟩
      rintro other ((isBelow | rfl) | isOther)
      · exact belowInside other isBelow
      · exact nodeInside
      · exact othersInside other isOther

theorem Lists.freed {gone : Addr -> Prop} (lists : heap.Lists object nodes) (freed : heap.Freed after gone)
    (apart : ∀ other ∈ object :: nodes, ¬ gone other) : after.Lists object nodes where
  parentLive := (freed.allocated object).mpr ⟨lists.parentLive, apart object List.mem_cons_self⟩
  live node inside :=
    (freed.allocated node).mpr ⟨lists.live node inside, apart node (List.mem_cons_of_mem _ inside)⟩
  linked := by
    rw [freed.links, freed.childOf]
    exact lists.linked

/-- Deleting what has no node in common with the list. -/
theorem Lists.cjsonDelete {start : Addr} (lists : heap.Lists object nodes)
    (apart : ∀ other ∈ object :: nodes, ¬ heap.Reaches start other) :
    Ensures (Heap.cjsonDelete fuel heap (some start)) fun after => after.Lists object nodes := by
  have deletes := @cjsonDelete_freed heap fuel {node | heap.Reaches start node} (some start)
    (fun node reaches other link => reaches.next link) (fun node reaches other link => reaches.child link)
    (into_some.mpr Reaches.refl)
  apply deletes.mono
  rintro after ⟨gone, freed, inside⟩
  exact lists.freed freed fun other member isGone => apart other member (inside other isGone)

theorem Lists.withFields (lists : heap.Lists object nodes) (node : Addr) (fields : Fields) :
    (heap.withFields node fields).Lists object nodes :=
  ⟨lists.parentLive, lists.live, lists.linked⟩

theorem Lists.record (lists : heap.Lists object nodes) (releases : List Release) :
    (heap.record releases).Lists object nodes :=
  ⟨lists.parentLive, lists.live, lists.linked⟩

theorem Lists.withHooks (lists : heap.Lists object nodes) (hooks : Hooks) :
    Heap.Lists { heap with hooks := hooks } object nodes :=
  ⟨lists.parentLive, lists.live, lists.linked⟩

/-- A new member under a name. -/
theorem Lists.nameAndAdd (lists : heap.Lists object nodes) (live : heap.allocated node = true)
    (fresh : node ∉ object :: nodes) (ends : heap.links.next node = none) (change : Fields -> Fields) :
    Ensures (do
      let heap ← heap.setFields (some node) change
      heap.addItemToArray (some object) (some node)) fun result => result.2.Lists object (nodes ++ [node]) := by
  rw [setFields_eq live, Except.ok_bind]
  have different : object ≠ node := fun same => fresh (same ▸ List.mem_cons_self)
  have adds := (lists.withFields node (change (heap.fieldsOf node))).addItemToArray live different
    (mt (List.mem_cons_of_mem _) fresh) ends
  apply Yields.of_returns
  apply adds.mono
  rintro result ⟨_, relists⟩
  apply relists.lists lists.parentLive
  intro member inside
  rcases List.mem_append.mp inside with earlier | same
  · exact lists.live member earlier
  · exact List.mem_singleton.mp same ▸ live

theorem Lists.addItemToObject (lists : heap.Lists object nodes) (live : heap.allocated node = true)
    (fresh : node ∉ object :: nodes) (ends : heap.links.next node = none) (string : Option Name)
    (constantKey : Bool) :
    Ensures (heap.addItemToObject (some object) string (some node) constantKey) fun result =>
      result.2.Lists object
        (heap.membersAfter nodes (.addItemToObject (some object) string (some node) constantKey)) := by
  rcases string with _ | string
  · exact .ok lists
  have different : object ≠ node := fun same => fresh (same ▸ List.mem_cons_self)
  have notSame : ¬ ((some object).isNone = true ∨ (some node).isNone = true ∨ some object = some node) := by
    simp [different]
  rw [Heap.addItemToObject, if_neg notSame]
  cases constantKey with
  | true =>
      refine Ensures.step fun fields => Ensures.ite (fun _ => .error) fun _ => ?_
      exact (lists.record _).nameAndAdd live fresh ends _
  | false =>
      rw [membersAfter, Bool.false_or, copyGranted]
      rcases strdup_cases heap string.bytes with ⟨hooks, copy, refused | copied⟩
      · rw [refused]
        exact .ok (lists.withHooks hooks)
      · rw [copied]
        refine Ensures.step fun fields => Ensures.ite (fun _ => .error) fun _ => ?_
        exact ((lists.withHooks hooks).record _).nameAndAdd live fresh ends _

/-- A member is taken out of the list, which keeps the others in their order; the
links that change are those of its neighbours and of the head. -/
theorem Lists.detachItem (lists : heap.Lists object nodes) (isMember : node ∈ nodes) :
    Returns (heap.cjsonDetachItemViaPointer (some object) (some node)) fun result =>
      result.1 = some node ∧ heap.Relists result.2 object nodes (nodes.erase node) ∧
        result.2.links.next node = none ∧ result.2.Lists object (nodes.erase node) := by
  apply Returns.mono (lists.cjsonDetachItemViaPointer isMember)
  rintro result ⟨same, relists, next, _⟩
  exact ⟨same, relists, next, relists.lists lists.parentLive fun member inside =>
    lists.live member (List.mem_of_mem_erase inside)⟩

theorem Lists.deleteItemFromObject (lists : heap.Lists object nodes) {string : Option Bytes}
    (searched : heap.getObjectItem fuel (some object) string caseSensitive =
      .ok (string.bind fun name => findMember heap.fieldsOf name caseSensitive nodes))
    (apart : ∀ name node start, string = some name -> findMember heap.fieldsOf name caseSensitive nodes = some node ->
      heap.childOf node = some start -> ∀ other ∈ object :: nodes, ¬ heap.Reaches start other) :
    Ensures (heap.cjsonDeleteItemFromObject fuel (some object) string caseSensitive) fun after =>
      after.Lists object (heap.membersAfter nodes (.deleteItemFromObject (some object) string caseSensitive)) := by
  rw [cjsonDeleteItemFromObject, cjsonDetachItemFromObject, searched, Except.ok_bind]
  have nothing : Ensures (heap.cjsonDelete fuel none) fun after => after.Lists object nodes := by
    cases fuel with
    | zero => exact .error
    | succ fuel => exact .ok lists
  rcases string with _ | name
  · exact nothing
  rw [Option.bind_some, membersAfter]
  cases found : findMember heap.fieldsOf name caseSensitive nodes with
  | none => exact nothing
  | some node =>
      have isMember := findMember_mem found
      rcases lists.detachItem isMember with ⟨⟨_, middle⟩, detached, rfl, relists, noNext, fewer⟩
      rw [detached, Except.ok_bind]
      have below : ∀ start, heap.childOf node = some start -> ∀ other, heap.Reaches start other ->
          other ∉ object :: nodes :=
        fun start isChild other reaches inside => apart name node start rfl found isChild other inside reaches
      have notObject : node ≠ object := by
        rintro rfl
        -- the object would be one of its own members
        rcases List.exists_cons_of_ne_nil (List.ne_nil_of_mem isMember) with ⟨head, rest, rfl⟩
        exact below head lists.linked.1 head .refl (List.mem_cons_of_mem _ List.mem_cons_self)
      have sameChild : middle.childOf node = heap.childOf node := relists.childOf node notObject
      rcases middle.recordChild_eq (some object) (some node) with ⟨releases, recorded⟩
      dsimp only
      rw [recorded]
      have deletes := @cjsonDelete_freed (middle.record releases) fuel
        {other | other = node ∨ ∃ start, heap.childOf node = some start ∧ heap.Reaches start other} (some node)
      have freed := deletes ?_ ?_ (into_some.mpr (Or.inl rfl))
      · apply freed.mono
        rintro after ⟨gone, freed, inside⟩
        apply fewer.freed freed.of_record
        intro other member isGone
        rcases inside other isGone with rfl | ⟨start, isChild, reaches⟩
        · rcases List.mem_cons.mp member with same | again
          · exact notObject same
          · exact lists.distinct.not_mem_erase again
        · apply below start isChild other reaches
          rcases List.mem_cons.mp member with same | again
          · exact same ▸ List.mem_cons_self
          · exact List.mem_cons_of_mem _ (List.mem_of_mem_erase again)
      · rintro other (rfl | ⟨start, isChild, reaches⟩) target link
        · rw [record_links, noNext] at link
          cases link
        · have outside := mt (List.mem_cons_of_mem object) (below start isChild other reaches)
          rw [record_links, (relists.links other outside).1] at link
          exact Or.inr ⟨start, isChild, reaches.next link⟩
      · rintro other (rfl | ⟨start, isChild, reaches⟩) target link
        · rw [record_childOf, sameChild] at link
          exact Or.inr ⟨target, link, .refl⟩
        · have outside : other ≠ object := fun same => below start isChild other reaches (same ▸ List.mem_cons_self)
          rw [record_childOf, relists.childOf other outside] at link
          exact Or.inr ⟨start, isChild, reaches.child link⟩

/-- `get_object_item` finds the member under a name. -/
theorem Lists.getObjectItem (lists : heap.Lists object nodes) (string : Option Bytes) (caseSensitive : Bool) :
    Settles (fun fuel => heap.getObjectItem fuel (some object) string caseSensitive) fun found =>
      found = string.bind fun name => findMember heap.fieldsOf name caseSensitive nodes := by
  cases string with
  | none => exact Settles.ok rfl
  | some name =>
      have walked := getObjectItemLoop_settles lists.linked.2 lists.live name caseSensitive
      apply walked.congr
      intro fuel
      rw [Heap.getObjectItem, child_eq lists.parentLive, Except.ok_bind, lists.linked.1]

/-- Every such call leaves the list well linked, with the members after the call. -/
theorem Lists.step (lists : heap.Lists object nodes) {operation : Operation} {outcome : Outcome}
    (on : heap.OnMembers object nodes operation) (ends : operation.Ends library heap outcome after) :
    after.Lists object (heap.membersAfter nodes operation) := by
  rcases ends with ⟨enough, runs⟩
  cases operation with
  | addItemToObject container string item constantKey =>
      rcases on with ⟨rfl, node, rfl, live, fresh, noNext⟩
      have ran := runs enough le_rfl
      rcases Except.bind_eq_ok.mp ran with ⟨result, added, finished⟩
      cases finished
      exact (lists.addItemToObject live fresh noNext string constantKey).elim added
  | detachItemViaPointer parent item =>
      rcases on with ⟨rfl, node, isMember, rfl⟩
      have ran := runs enough le_rfl
      rcases Except.bind_eq_ok.mp ran with ⟨result, detached, finished⟩
      cases finished
      exact ((lists.detachItem isMember).elim detached).2.2.2
  | delete item =>
      rcases on with ⟨node, rfl, apart⟩
      have ran := runs enough le_rfl
      rcases Except.bind_eq_ok.mp ran with ⟨result, deleted, finished⟩
      cases finished
      exact (lists.cjsonDelete apart).elim deleted
  | deleteItemFromObject container string caseSensitive =>
      rcases on with ⟨rfl, apart⟩
      rcases lists.getObjectItem string caseSensitive with ⟨more, found, finds, rfl⟩
      have ran := runs (max enough more) (Nat.le_max_left _ _)
      rcases Except.bind_eq_ok.mp ran with ⟨result, deleted, finished⟩
      cases finished
      exact (lists.deleteItemFromObject (finds _ (Nat.le_max_right _ _)) apart).elim deleted
  | _ => exact on.elim

theorem Lists.afterwards (lists : heap.Lists object nodes) {members : List Addr}
    (later : Afterwards library object heap nodes after members) : after.Lists object members := by
  induction later with
  | refl => exact lists
  | step _ on ends ih => exact ih.step on ends

/-- `sort_object` leaves an object whose list stays well linked under all later calls
exactly if the first member was smaller than all others before, and the last one
greater. -/
theorem sortObject_keepsMembers_iff (lists : heap.Lists object nodes) (enough : nodes.length < fuel) :
    ∃ after sorted, heap.sortObject fuel (some object) caseSensitive = .ok after ∧ sorted.Perm nodes ∧
      after.childOf object = sorted.head? ∧ after.links.Chain sorted none ∧
      (KeepsMembers library after object sorted ↔
        MergeSort.Outermost (smallerNode heap.fieldsOf caseSensitive) nodes) := by
  have live := lists.live
  rcases @sortObject_eq heap nodes caseSensitive fuel object lists.parentLive lists.linked.1
    lists.linked.2.chain live enough with ⟨links, sorted, sorts, _⟩
  have perm := @MergeSort.sort_perm _ (smallerNode heap.fieldsOf caseSensitive) nodes
  have ends := sorts.wellLinked_iff lists.linked perm
  rw [MergeSort.sort_ends_iff (smallerNode_comparesNamed heap.fieldsOf caseSensitive) lists.distinct] at ends
  refine ⟨_, _, sorted, perm, by simp, sorts.chain, ?_⟩
  constructor
  · intro keeps
    have now := keeps _ _ .refl
    rw [withChild_childOf, if_pos rfl] at now
    exact ends.mp now
  · intro outermost
    have relisted : Heap.Lists ((heap.withLinks links).withChild object
        (MergeSort.sort (smallerNode heap.fieldsOf caseSensitive) nodes).head?) object
          (MergeSort.sort (smallerNode heap.fieldsOf caseSensitive) nodes) := by
      refine ⟨lists.parentLive, fun node inside => live node (perm.mem_iff.mp inside), ?_⟩
      rw [withChild_childOf, if_pos rfl]
      exact ends.mpr outermost
    exact fun after members later => (relisted.afterwards later).linked

/-- An object with the members `b` and `a`, and a node to add. -/
def unsortedObject : Heap := (objectOf [[98, 0], [97, 0]]).withNode .null

theorem unsortedObject_lists : unsortedObject.Lists 0 [1, 2] where
  parentLive := rfl
  live := by decide
  linked := ⟨rfl, rfl, rfl, rfl, rfl, trivial⟩

theorem sortObject_keepsMembers_iff_unsorted :
    ∃ after sorted, unsortedObject.sortObject 3 (some 0) true = .ok after ∧ sorted.Perm [1, 2] ∧
      after.childOf 0 = sorted.head? ∧ after.links.Chain sorted none ∧
      (KeepsMembers decimalLibrary after 0 sorted ↔
        MergeSort.Outermost (smallerNode unsortedObject.fieldsOf true) [1, 2]) :=
  sortObject_keepsMembers_iff unsortedObject_lists (by decide)

/-- After the sort the head has no `prev`, and a member that is added is in no list,
although the call says that it has been added. -/
theorem sorted_object_loses_member : unsortedObject.Lists 0 [1, 2] ∧
    ∃ after later, unsortedObject.sortObject 3 (some 0) true = .ok after ∧
      after.links.Chain [2, 1] none ∧ ¬ after.links.WellLinked (after.childOf 0) [2, 1] ∧
      after.addItemToObject (some 0) (some ⟨[99, 0], none⟩) (some 3) false = .ok (true, later) ∧
      later.childOf 0 = some 2 ∧ later.links.Chain [2, 1] none := by
  refine ⟨unsortedObject_lists, _, _, rfl, ⟨rfl, rfl, rfl, rfl, trivial⟩, ?_, rfl, rfl, rfl, rfl, rfl, rfl, trivial⟩
  intro linked
  exact absurd (linked.prev_first rfl) (by decide)

end Heap
end CJson
